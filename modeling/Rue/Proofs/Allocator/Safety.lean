import Rue.Proofs.Allocator.Operations

/-! Resizing keeps a block where it is when its kind stays the same. Otherwise a
replacement is allocated before the block is released. -/

namespace Rue.Proofs.Allocator
open Rue.Runtime.Allocator Rue.Lib.Memory

section Relabel
variable {debug : Bool} {heap : Heap} {owners : Owners} {block : Block} {live : List Block} {size : Nat}

theorem readAllocationHeader_resized (heap : Heap) {pointer size : Nat} (fits : size ≤ usizeMax) :
    readAllocationHeader (updateAllocationSize heap pointer size) pointer = { readAllocationHeader heap pointer with size } := by
  unfold readAllocationHeader updateAllocationSize
  simp (disch := first | assumption | (simp only [Region.Disjoint]; omega)) only [read_write_of_disjoint, read_write_self]

theorem Layout.relabel (layout : Layout debug heap owners) (newest : owners.live = block :: live)
    (kind : classify size block.align = classify block.size block.align) :
    Layout debug (if debug then updateAllocationSize heap block.pointer size else heap)
      { owners with live := { block with size } :: live } := by
  have held : block ∈ owners.live := by
    rw [newest]
    exact List.mem_cons_self
  have front : Owned debug heap.events { owners with live := block :: live } := newest ▸ layout.owned
  have owned := front.relabel kind
  refine ⟨by cases debug <;> exact owned, ?_⟩
  have dropped := layout.stored.drop newest
  split
  next debugging =>
    have inside := (layout.owned.header_within held debugging).1
    have kept : Stored debug (updateAllocationSize heap block.pointer size) { owners with live } := by
      refine dropped.frame rfl rfl fun region member address holds => ?_
      refine write_outside block.headerRegion ?_ fun written => (layout.owned.apart_from_rest newest inside region member).not_holds written holds
      have constants := sizes
      simp only [Region.Within, Block.headerRegion]
      omega
    refine { kept with headers := fun _ other listed => ?_ }
    cases listed with
    | head =>
      have bounded : size ≤ usizeMax := by
        cases layout.owned.placed block held with
        | small classified | direct classified => exact (classify_valid (kind.trans classified)).bounded
      have header : Block.header debug { block with size } = { block.header debug with size } := by
        simp only [Block.header, kind]
        cases classify block.size block.align with
        | none => rfl
        | some kind => cases kind <;> rfl
      rw [header, ← layout.stored.headers debugging block held]
      exact readAllocationHeader_resized heap bounded
    | tail _ still => exact kept.headers debugging other still
  next plain => exact { dropped with headers := fun debugging => absurd debugging plain }

theorem checkedRecord_live (layout : Layout debug heap owners) (held : block ∈ owners.live) :
    checkedRecord debug heap block.pointer block.size block.align = some (if debug then some (block.header debug) else none) := by
  unfold checkedRecord
  split
  next debugging => rw [layout.stored.validate held debugging, Option.map_some]
  next => rfl

theorem kind_checked {kind : AllocationKind} (classified : classify block.size block.align = some kind) :
    (if debug then some (block.header debug) else none).any (fun record => record.kind ≠ allocationKindKey kind) = false := by
  split
  · cases kind <;> simp [Block.header, classified, allocationKindKey]
  · rfl

theorem Owned.classified {events : List Event} (owned : Owned debug events owners) (held : block ∈ owners.live) :
    ∃ kind, classify block.size block.align = some kind := by
  cases owned.placed block held with
  | small classified | direct classified => exact ⟨_, classified⟩

theorem resizeInPlace_layout (layout : Layout debug heap owners) (newest : owners.live = block :: live) (size : Nat) :
    ∃ accepted heap' owners', resizeInPlace debug block.pointer block.size size block.align heap = some (accepted, heap') ∧
      Layout debug heap' owners' ∧ owners'.live = if accepted then { block with size } :: live else owners.live := by
  have held : block ∈ owners.live := by
    rw [newest]
    exact List.mem_cons_self
  obtain ⟨oldKind, classified⟩ := layout.owned.classified held
  unfold resizeInPlace
  rw [if_neg (layout.owned.pointer_nonzero held), checkedRecord_live layout held, Option.bind_eq_bind, Option.bind_some]
  split
  next => exact ⟨_, _, owners, rfl, layout, rfl⟩
  next =>
    split
    next _ newKind before after =>
      cases classified.symm.trans before
      rw [kind_checked classified, if_neg Bool.false_ne_true]
      split
      next same =>
        have kind : classify size block.align = classify block.size block.align := by rw [after, before, same]
        exact ⟨_, _, _, rfl, layout.relabel newest kind, rfl⟩
      next => exact ⟨_, _, owners, rfl, layout, rfl⟩
    next => exact ⟨_, _, owners, rfl, layout, rfl⟩

theorem Layout.reorder (layout : Layout debug heap owners) (same : owners.live.Perm live) : Layout debug heap { owners with live } :=
  ⟨layout.owned.reorder same, { layout.stored with
    headers := fun debugging other held => layout.stored.headers debugging other (same.mem_iff.mpr held) }⟩

end Relabel

section Replace
variable {debug : Bool} {mapper : PageMapper} {heap : Heap} {owners : Owners} {block : Block} {live : List Block}

/-- Copying into a live block leaves the layout as it is. -/
theorem Layout.copy {replacement : Block} {size : Nat} (layout : Layout debug heap owners) (source : Nat) (held : replacement ∈ owners.live)
    (room : size ≤ replacement.size) :
    Layout debug { heap with memory := Lib.Memory.copy heap.memory source replacement.pointer size } owners := by
  refine ⟨layout.owned, layout.stored.write layout.owned fun address changed => Or.inl ⟨replacement, held, ?_⟩⟩
  by_contra outside
  refine changed (copy_outside fun inside => outside ?_)
  simp only [Region.Holds, Block.payload] at inside ⊢
  omega

/-- The live blocks behind a reallocation. -/
def reissue (block : Block) (live : List Block) (pointer size : Nat) : List Block :=
  if size = 0 then live else if pointer = 0 then block :: live else ⟨pointer, size, block.align⟩ :: live

theorem reallocate_layout (lawful : Lawful mapper) (layout : Layout debug heap owners) (newest : owners.live = block :: live) (size : Nat) :
    ∃ pointer heap' owners', reallocate debug mapper block.pointer block.size size block.align heap = some (pointer, heap') ∧
      Layout debug heap' owners' ∧ owners'.live.Perm (reissue block live pointer size) := by
  have held : block ∈ owners.live := by
    rw [newest]
    exact List.mem_cons_self
  have nonzero := layout.owned.pointer_nonzero held
  obtain ⟨oldKind, classified⟩ := layout.owned.classified held
  unfold reallocate
  rw [if_neg nonzero, checkedRecord_live layout held, Option.bind_eq_bind, Option.bind_some]
  split
  next zero =>
    obtain ⟨heap', owners', released, after, rest⟩ := deallocate_layout (newest ▸ layout : Layout debug heap { owners with live := block :: live })
    rw [released, Option.map_some]
    exact ⟨_, _, owners', rfl, after, by rw [rest, reissue, if_pos zero]⟩
  next positive =>
    have unchanged : owners.live.Perm (reissue block live 0 size) := by
      rw [reissue, if_neg positive, if_pos rfl, newest]
    split
    next _ newKind before after =>
      cases classified.symm.trans before
      rw [kind_checked classified, if_neg Bool.false_ne_true]
      split
      next same =>
        have kind : classify size block.align = classify block.size block.align := by rw [after, before, same]
        refine ⟨_, _, _, rfl, layout.relabel newest kind, ?_⟩
        rw [reissue, if_neg positive, if_neg nonzero]
      next =>
        obtain ⟨replacement, heap', owners', allocated, after, issued⟩ := allocate_layout lawful layout size block.align
        rw [allocated, Option.bind_eq_bind, Option.bind_some]
        dsimp only
        split
        next null =>
          refine ⟨_, _, owners', rfl, after, ?_⟩
          rw [issued, issue, if_pos null]
          exact unchanged
        next fresh =>
          rw [issue, if_neg fresh, newest] at issued
          have member : (⟨replacement, size, block.align⟩ : Block) ∈ owners'.live := by
            rw [issued]
            exact List.mem_cons_self
          have front : owners'.live.Perm (block :: ⟨replacement, size, block.align⟩ :: live) := by
            rw [issued]
            exact .swap _ _ _
          have copied := after.copy block.pointer member (Nat.min_le_right block.size size)
          obtain ⟨final, owners'', released, last, rest⟩ := deallocate_layout (copied.reorder front)
          rw [released, Option.map_some]
          refine ⟨_, _, owners'', rfl, last, ?_⟩
          rw [rest, reissue, if_neg positive, if_neg fresh]
    next => exact ⟨_, _, owners, rfl, layout, unchanged⟩

end Replace

end Rue.Proofs.Allocator

/-! Safety over every run of calls that keeps the callers' contract, with a
mapper that keeps its own. Between calls the callers write to their blocks. -/

namespace Rue.Proofs.Allocator
open Rue.Runtime.Allocator Rue.Lib.Memory

inductive Call where
  | allocate (size align : Nat)
  | deallocate (pointer size align : Nat)
  | reallocate (pointer oldSize newSize align : Nat)
  | resizeInPlace (pointer oldSize newSize align : Nat)
  deriving DecidableEq, Repr

/-- A pointer that is passed in is null or live with its size and alignment. -/
def Call.Admissible (live : List Block) : Call → Prop
  | .allocate .. => True
  | .deallocate pointer size align | .reallocate pointer size _ align | .resizeInPlace pointer size _ align =>
    pointer = 0 ∨ ⟨pointer, size, align⟩ ∈ live

/-- The reply is a pointer, or one for an accepted resize. -/
def perform (debug : Bool) (mapper : PageMapper) (heap : Heap) : Call → Option (Nat × Heap)
  | .allocate size align => allocate debug mapper size align heap
  | .deallocate pointer size align => (deallocate debug pointer size align heap).map (0, ·)
  | .reallocate pointer oldSize newSize align => reallocate debug mapper pointer oldSize newSize align heap
  | .resizeInPlace pointer oldSize newSize align =>
    (resizeInPlace debug pointer oldSize newSize align heap).map fun (accepted, heap) => (accepted.toNat, heap)

/-- The live blocks behind a call, as its reply tells. -/
def settle (live : List Block) (reply : Nat) : Call → List Block
  | .allocate size align => issue ⟨reply, size, align⟩ live
  | .deallocate pointer size align => live.erase ⟨pointer, size, align⟩
  | .reallocate pointer oldSize newSize align =>
    if pointer = 0 then issue ⟨reply, newSize, align⟩ live
    else reissue ⟨pointer, oldSize, align⟩ (live.erase ⟨pointer, oldSize, align⟩) reply newSize
  | .resizeInPlace pointer oldSize newSize align =>
    if reply = 0 then live else ⟨pointer, newSize, align⟩ :: live.erase ⟨pointer, oldSize, align⟩

/-- A heap and the live blocks, after any calls and writes. -/
inductive Reachable (debug : Bool) (mapper : PageMapper) : Heap → List Block → Prop where
  | start (memory) : Reachable debug mapper (.new memory) []
  | call {heap live reply heap'} (call : Call) (before : Reachable debug mapper heap live) (admissible : call.Admissible live)
      (returns : perform debug mapper heap call = some (reply, heap')) : Reachable debug mapper heap' (settle live reply call)
  | write {heap live} (memory : Bytes) (before : Reachable debug mapper heap live)
      (kept : ∀ address, memory address ≠ heap.memory address →
        (∃ block ∈ live, block.payload.Holds address) ∨ ∀ region ∈ mapped heap.events, ¬ region.Holds address) :
      Reachable debug mapper { heap with memory } live

structure Sound (debug : Bool) (heap : Heap) (live : List Block) : Prop where
  disjoint : live.Pairwise fun first second => (first.storage debug).Disjoint (second.storage debug)
  room : ∀ block ∈ live, block.payload.Within (block.storage debug)
  inside : ∀ block ∈ live, ∃ region ∈ mapped heap.events, (block.storage debug).Within region
  aligned : ∀ block ∈ live, block.pointer ≠ 0 ∧ block.align ∣ block.pointer
  orderly : Orderly heap.events
  carvedOnce : (carved heap.events).Pairwise fun first second => first.1 ≠ second.1
  kept : ∃ arenas free, Chain heap.read heap.currentArena arenas ∧
    (∀ index < classCount, Chain heap.read (heap.freeLists index) (listOf free index)) ∧
    (∀ arena ∈ arenas, ∀ block ∈ live, (arenaHeader arena).Disjoint (block.storage debug)) ∧
    (∀ place ∈ free, ∀ block ∈ live, (slot debug place).Disjoint (block.storage debug)) ∧
    (∀ place ∈ free, place.2 < classCount ∧ place ∈ carved heap.events) ∧ free.Pairwise fun first second => first.1 ≠ second.1

section Run
variable {debug : Bool} {mapper : PageMapper} {heap : Heap} {owners : Owners} {live : List Block}

theorem Owned.aligned {events : List Event} {block : Block} (owned : Owned debug events owners) (held : block ∈ owners.live) :
    block.align ∣ block.pointer := by
  cases owned.placed block held with
  | small classified placed =>
    have fits := classify_small classified
    refine Nat.dvd_trans fits.align ?_
    rw [fits.blockAlign]
    exact (owned.carvings _ placed).2.1
  | @direct mappingSize payloadOffset physicalSize classified layout placed behind =>
    have valid := classify_valid classified
    obtain ⟨shift, low, power⟩ := valid.power
    have spec := directLayout_spec valid.power (classify_direct classified).1 layout
    have pages : block.align ∣ pageSize := power ▸ Nat.pow_dvd_pow 2 low
    have whole := Nat.dvd_add (Nat.dvd_trans pages (owned.pages _ placed).aligned) spec.1
    rwa [Nat.sub_add_cancel behind] at whole

theorem Layout.sound (layout : Layout debug heap owners) : Sound debug heap owners.live := by
  have used := (List.pairwise_append.mp layout.owned.apart).2.1
  obtain ⟨blocks, others, between⟩ := List.pairwise_append.mp used
  obtain ⟨frees, headers, _⟩ := List.pairwise_append.mp others
  refine ⟨List.pairwise_map.mp blocks, fun block => layout.owned.payload_within, fun block held => ?_, fun block held => ?_,
    layout.owned.orderly, layout.owned.once, owners.arenas, owners.free, layout.stored.arenas, layout.stored.lists, ?_, ?_, ?_, ?_⟩
  · exact layout.owned.inside _ (List.mem_append_left _ (List.mem_map_of_mem held))
  · exact ⟨layout.owned.pointer_nonzero held, layout.owned.aligned held⟩
  · exact fun arena member block held =>
      (between _ (List.mem_map_of_mem held) _ (List.mem_append_right _ (List.mem_map_of_mem member))).symm
  · exact fun place member block held =>
      (between _ (List.mem_map_of_mem held) _ (List.mem_append_left _ (List.mem_map_of_mem member))).symm
  · exact fun place member => ⟨(layout.owned.carvings place (layout.owned.freed place member)).1, layout.owned.freed place member⟩
  · refine (List.pairwise_map.mp frees).imp fun {first second} apart same => ?_
    have positive := Nat.two_pow_pos (first.2 + minClassShift)
    have positive' := Nat.two_pow_pos (second.2 + minClassShift)
    simp only [Region.Disjoint, slot, same, classSize] at apart
    omega

theorem new_layout (memory : Bytes) : Layout debug (.new memory) ⟨[], [], arenaHeaderSize, []⟩ := by
  have none' : ∀ {α : Type} {p : α → Prop}, ∀ x ∈ ([] : List α), p x := fun _ member => absurd member List.not_mem_nil
  refine ⟨⟨.nil, none', none', none', ⟨Nat.le_refl _, by decide⟩, none', none', none', none', .nil, trivial⟩, ⟨rfl, none', ?_, ?_, ?_⟩⟩
  · exact fun _ member => by cases member
  · exact fun _ _ => rfl
  · exact fun _ => none'

/-- A call that keeps the contract returns, and keeps the layout. -/
theorem perform_layout (lawful : Lawful mapper) (layout : Layout debug heap owners) (call : Call) (admissible : call.Admissible owners.live) :
    ∃ reply heap' owners', perform debug mapper heap call = some (reply, heap') ∧ Layout debug heap' owners' ∧
      owners'.live.Perm (settle owners.live reply call) := by
  have front : ∀ {block}, block ∈ owners.live → Layout debug heap { owners with live := block :: owners.live.erase block } :=
    fun held => layout.reorder (List.perm_cons_erase held)
  cases call with
  | allocate size align =>
    obtain ⟨reply, heap', owners', found, after, issued⟩ := allocate_layout lawful layout size align
    exact ⟨reply, heap', owners', found, after, by rw [issued]; rfl⟩
  | deallocate pointer size align =>
    rcases admissible with rfl | held
    · have absent : ⟨0, size, align⟩ ∉ owners.live := fun held => layout.owned.pointer_nonzero held rfl
      refine ⟨0, heap, owners, rfl, layout, ?_⟩
      rw [settle, List.erase_of_not_mem absent]
    · obtain ⟨heap', owners', found, after, rest⟩ := deallocate_layout (front held)
      refine ⟨0, heap', owners', ?_, after, by rw [rest]; rfl⟩
      simp only [perform]
      rw [found, Option.map_some]
  | reallocate pointer oldSize newSize align =>
    rcases admissible with rfl | held
    · obtain ⟨reply, heap', owners', found, after, issued⟩ := allocate_layout lawful layout newSize align
      exact ⟨reply, heap', owners', found, after, by rw [issued, settle, if_pos rfl]⟩
    · obtain ⟨reply, heap', owners', found, after, issued⟩ := reallocate_layout lawful (front held) rfl newSize
      refine ⟨reply, heap', owners', found, after, ?_⟩
      rw [settle, if_neg (layout.owned.pointer_nonzero held)]
      exact issued
  | resizeInPlace pointer oldSize newSize align =>
    rcases admissible with rfl | held
    · exact ⟨0, heap, owners, rfl, layout, by rw [settle, if_pos rfl]⟩
    · obtain ⟨accepted, heap', owners', found, after, rest⟩ := resizeInPlace_layout (front held) rfl newSize
      refine ⟨accepted.toNat, heap', owners', ?_, after, ?_⟩
      · simp only [perform]
        rw [found, Option.map_some]
      · rw [rest, settle]
        cases accepted with
        | false => exact (List.perm_cons_erase held).symm
        | true => exact .refl _

theorem Reachable.layout (lawful : Lawful mapper) (reachable : Reachable debug mapper heap live) :
    ∃ owners, Layout debug heap owners ∧ owners.live = live := by
  induction reachable with
  | start memory => exact ⟨_, new_layout memory, rfl⟩
  | call call before admissible returns ih =>
    obtain ⟨owners, layout, rfl⟩ := ih
    obtain ⟨reply, heap', owners', found, after, settled⟩ := perform_layout lawful layout call admissible
    cases returns.symm.trans found
    exact ⟨_, after.reorder settled, rfl⟩
  | write memory before kept ih =>
    obtain ⟨owners, layout, rfl⟩ := ih
    exact ⟨owners, ⟨layout.owned, layout.stored.write layout.owned kept⟩, rfl⟩

/-- At every step the live blocks are aligned, large enough and apart from each
other and from everything of the allocator's, every free block is on the list of
the class it was carved for and on no other, every mapping is released at most
once, and the next call returns. -/
theorem reachable_sound (lawful : Lawful mapper) (reachable : Reachable debug mapper heap live) :
    Sound debug heap live ∧ ∀ call : Call, call.Admissible live → ∃ reply heap', perform debug mapper heap call = some (reply, heap') := by
  obtain ⟨owners, layout, rfl⟩ := reachable.layout lawful
  refine ⟨layout.sound, fun call admissible => ?_⟩
  obtain ⟨reply, heap', _, found, _⟩ := perform_layout lawful layout call admissible
  exact ⟨reply, heap', found⟩

end Run

section Example

def frontier : List Region → Nat
  | [] => 0
  | region :: regions => max (region.base + region.size) (frontier regions)

def stacking : PageMapper where
  allocationPermitted _ := true
  map events size :=
    let base := (frontier (mapped events) / pageSize + 1) * pageSize
    if base + size ≤ usizeMax then base else 0

theorem frontier_past (regions : List Region) : ∀ region ∈ regions, region.base + region.size ≤ frontier regions := by
  induction regions with
  | nil => exact fun _ member => absurd member List.not_mem_nil
  | cons first regions ih =>
    intro region member
    cases member with
    | head => exact Nat.le_max_left _ _
    | tail _ later => exact Nat.le_trans (ih region later) (Nat.le_max_right _ _)

theorem stacking_lawful : Lawful stacking := by
  have constants := sizes
  intro events size _ _ nonzero
  simp only [stacking] at nonzero ⊢
  split at nonzero
  next fits =>
    rw [if_pos fits]
    refine ⟨⟨nonzero, Nat.dvd_mul_left _ _, fits⟩, fun region member => Or.inr ?_⟩
    have past := frontier_past _ region member
    change _ ≤ (frontier (mapped events) / 4096 + 1) * 4096
    omega
  next => exact absurd rfl nonzero

/-- A small block that moves to a mapping of its own. -/
theorem stacked_sound :
    ∃ first second heap heap', perform true stacking (.new fun _ => 0) (.allocate 17 1) = some (first, heap) ∧
      perform true stacking heap (.reallocate first 17 40000 1) = some (second, heap') ∧
      Sound true heap' (settle (settle [] first (.allocate 17 1)) second (.reallocate first 17 40000 1)) := by
  have start : Reachable true stacking (.new fun _ => 0) [] := .start _
  obtain ⟨first, heap, found⟩ := (reachable_sound stacking_lawful start).2 (.allocate 17 1) trivial
  have grown := Reachable.call (.allocate 17 1) start trivial found
  have admissible : Call.Admissible (settle [] first (.allocate 17 1)) (.reallocate first 17 40000 1) := by
    by_cases null : first = 0
    · exact Or.inl null
    · exact Or.inr (by rw [settle, issue, if_neg null]; exact List.mem_cons_self)
  obtain ⟨second, heap', moved⟩ := (reachable_sound stacking_lawful grown).2 _ admissible
  exact ⟨first, second, heap, heap', found, moved, (reachable_sound stacking_lawful (.call _ grown admissible moved)).1⟩

end Example

end Rue.Proofs.Allocator
