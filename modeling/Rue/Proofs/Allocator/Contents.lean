import Mathlib
import Rue.Proofs.Allocator.Safety

/-! What the callers' blocks hold: no call changes the bytes of the blocks it is
not about, a refused call changes none at all, and a block that moves takes its
bytes along. -/

namespace Rue.Proofs.Allocator
open Rue.Runtime.Allocator Rue.Lib.Memory

def Kept (heap heap' : Heap) (region : Region) : Prop := ∀ address, region.Holds address → heap'.memory address = heap.memory address

/-- Nothing changed but what the mapper was asked. -/
structure Refused (heap heap' : Heap) : Prop where
  memory : heap'.memory = heap.memory
  arena : heap'.currentArena = heap.currentArena
  lists : heap'.freeLists = heap.freeLists

/-- The effect of an allocation on the blocks that are live already. -/
structure Spares (debug : Bool) (heap heap' : Heap) (live : List Block) (pointer : Nat) : Prop where
  refused : pointer = 0 → Refused heap heap'
  kept : ∀ block ∈ live, Kept heap heap' (block.storage debug)

section Kept
variable {heap heap' heap'' : Heap} {region inner : Region}

theorem Kept.refl (heap : Heap) (region : Region) : Kept heap heap region := fun _ _ => rfl

theorem Kept.trans (first : Kept heap heap' region) (second : Kept heap' heap'' region) : Kept heap heap'' region :=
  fun address holds => (second address holds).trans (first address holds)

theorem Kept.within (kept : Kept heap heap' region) (within : inner.Within region) : Kept heap heap' inner :=
  fun address holds => kept address (within.holds holds)

theorem Refused.kept (refused : Refused heap heap') : Kept heap heap' region := fun address _ => congrFun refused.memory address

theorem kept_write {address value : Nat} (apart : Region.Disjoint ⟨address, 8⟩ region) : Kept heap (heap.write address value) region :=
  fun _ holds => write_outside ⟨address, 8⟩ ⟨Nat.le_refl _, Nat.le_refl _⟩ (apart.symm.not_holds holds)

theorem kept_header {pointer : Nat} {header : AllocationHeader}
    (apart : Region.Disjoint ⟨pointer - allocationHeaderSize, allocationHeaderSize⟩ region) :
    Kept heap (writeAllocationHeader heap pointer header) region :=
  fun _ holds => writeAllocationHeader_outside (apart.symm.not_holds holds)

end Kept

section Issued
variable {debug : Bool} {heap heap' : Heap} {owners : Owners} {block : Block} {live : List Block}

/-- The storage of a block is apart from that of the others. -/
theorem Owned.apart_from_others {events : List Event} (owned : Owned debug events owners) (newest : owners.live = block :: live) :
    ∀ other ∈ live, (block.storage debug).Disjoint (other.storage debug) := by
  have used := (List.pairwise_append.mp (List.pairwise_append.mp owned.apart).2.1).1
  rw [newest, List.map_cons, List.pairwise_cons] at used
  exact fun other held => used.1 _ (List.mem_map_of_mem held)

/-- The header of a new block is not in the others' storage. -/
theorem Layout.kept_issued {header : AllocationHeader} {before : Heap} (layout : Layout debug heap' owners)
    (newest : owners.live = block :: live) :
    ∀ other ∈ live, Kept before (if debug then writeAllocationHeader before block.pointer header else before) (other.storage debug) := by
  intro other held
  split
  next debugging =>
    have member : block ∈ owners.live := by
      rw [newest]
      exact List.mem_cons_self
    have inside := (layout.owned.header_within member debugging).1
    exact kept_header ((layout.owned.apart_from_others newest other held).of_within inside)
  next => exact .refl before _

end Issued

section Small
variable {debug : Bool} {mapper : PageMapper} {heap : Heap} {owners : Owners} {smallClass : SmallClass} {size align : Nat}

theorem allocateFromArena_spares {arena pointer : Nat} {heap' : Heap} {older : List Nat} (layout : Layout debug heap owners)
    (current : owners.arenas = arena :: older) (classified : classify size align = some (.small smallClass))
    (found : allocateFromArena debug heap arena smallClass size align = some (pointer, heap')) :
    pointer ≠ 0 ∧ Spares debug heap heap' owners.live pointer := by
  have head : arena ∈ owners.arenas := by
    rw [current]
    exact List.mem_cons_self
  obtain ⟨_, _, owners', same, after, issued⟩ := allocateFromArena_layout layout current classified found
  cases same
  unfold allocateFromArena at found
  obtain ⟨start, starts, found⟩ := Option.bind_eq_some_iff.mp found
  obtain ⟨pointerOffset, aligns, found⟩ := Option.bind_eq_some_iff.mp found
  obtain ⟨newOffset, ends, found⟩ := Option.bind_eq_some_iff.mp found
  split at found
  next => cases found
  next room =>
    have nonzero : pointer ≠ 0 := by
      cases found
      have region := (layout.owned.pages _ (layout.owned.arenas arena head)).nonzero
      dsimp only at region
      omega
    rw [issue, if_neg nonzero] at issued
    cases found
    refine ⟨nonzero, fun null => absurd null nonzero, fun block held => ?_⟩
    have bumped : Kept heap ((heap.write (arena + 16) newOffset).log (.carving (arena + pointerOffset) smallClass.index))
        (block.storage debug) := by
      have used := (List.pairwise_append.mp (List.pairwise_append.mp layout.owned.apart).2.1).2.2
      have apart := used _ (List.mem_map_of_mem held) _ (List.mem_append_right _ (List.mem_map_of_mem head))
      refine kept_write (apart.symm.of_within ?_)
      have constants := sizes
      simp only [Region.Within, arenaHeader]
      omega
    exact bumped.trans (after.kept_issued issued block held)

theorem allocateFromArenas_current {fuel : Nat} {done : Nat × Heap} (some' : heap.currentArena ≠ 0)
    (served : allocateFromArena debug heap heap.currentArena smallClass size align = some done) :
    allocateFromArenas debug mapper smallClass size align (fuel + 1) heap = some done := by
  rw [allocateFromArenas, if_pos some', served]

theorem allocateFromArenas_spares {fuel pointer : Nat} {heap' : Heap} (lawful : Lawful mapper) (layout : Layout debug heap owners)
    (classified : classify size align = some (.small smallClass))
    (found : allocateFromArenas debug mapper smallClass size align (fuel + 2) heap = some (pointer, heap')) :
    Spares debug heap heap' owners.live pointer ∧ (pointer = 0 → mapper.map heap.events arenaSize = 0) := by
  have round : ∀ attempt, (if heap.currentArena ≠ 0 then allocateFromArena debug heap heap.currentArena smallClass size align else none) =
      some attempt → attempt.1 ≠ 0 ∧ Spares debug heap attempt.2 owners.live attempt.1 := by
    intro attempt found
    rcases layout.stored.arenas.cases with ⟨null, _⟩ | ⟨nonzero, older, current, _⟩
    · rw [if_neg (not_not.mpr null)] at found
      cases found
    · rw [if_pos nonzero] at found
      exact allocateFromArena_spares layout current classified found
  rw [allocateFromArenas] at found
  split at found
  next done succeeds =>
    obtain ⟨nonzero, spares⟩ := round done succeeds
    cases found
    exact ⟨spares, fun null => absurd null nonzero⟩
  next =>
    dsimp only at found
    split at found
    next null =>
      cases found
      exact ⟨⟨fun _ => ⟨rfl, rfl, rfl⟩, fun block _ => .refl _ _⟩, fun _ => null⟩
    next mapped =>
      obtain ⟨paged, unused⟩ := lawful heap.events arenaSize (by decide) (by decide) mapped
      have expanded := layout.expand paged unused
      obtain ⟨⟨reply, final⟩, served⟩ := @allocateFromArena_fits debug _ smallClass size align _ classified
        (expanded.stored.offset _ rfl) (expanded.stored.sizes _ List.mem_cons_self)
      cases (@allocateFromArenas_current _ mapper _ _ _ _ fuel _ mapped served).symm.trans found
      obtain ⟨nonzero, spares⟩ := allocateFromArena_spares expanded rfl classified served
      refine ⟨⟨fun null => absurd null nonzero, fun block held => ?_⟩, fun null => absurd null nonzero⟩
      refine Kept.trans ?_ (spares.kept block held)
      have constants := sizes
      have fresh := layout.owned.fresh unused _ (List.mem_append_right _ (List.mem_append_left _ (List.mem_map_of_mem held)))
      have header : ∀ offset, offset + 8 ≤ arenaHeaderSize →
          Region.Disjoint ⟨mapper.map heap.events arenaSize + offset, 8⟩ (block.storage debug) := by
        intro offset inside
        refine fresh.of_within ?_
        simp only [Region.Within]
        omega
      exact (kept_write (header 0 (by omega))).trans ((kept_write (header 8 (by omega))).trans (kept_write (header 16 (by omega))))

theorem allocateSmall_spares {pointer : Nat} {heap' : Heap} (lawful : Lawful mapper) (layout : Layout debug heap owners)
    (classified : classify size align = some (.small smallClass))
    (found : allocateSmall debug mapper smallClass size align heap = some (pointer, heap')) :
    Spares debug heap heap' owners.live pointer ∧ (pointer = 0 → mapper.map heap.events arenaSize = 0) := by
  unfold allocateSmall at found
  rw [if_pos (classify_small classified).index] at found
  dsimp only at found
  split at found
  next nonzero =>
    let block : Block := ⟨heap.freeLists smallClass.index, size, align⟩
    obtain ⟨free, taken⟩ : ∃ free, Layout debug _ { owners with live := block :: owners.live, free } :=
      takeFree_layout layout classified nonzero rfl
    cases found
    refine ⟨⟨fun null => absurd null nonzero, fun other held => ?_⟩, fun null => absurd null nonzero⟩
    have emptied : Kept heap
        { heap with freeLists := Function.update heap.freeLists smallClass.index (heap.read (heap.freeLists smallClass.index)) }
        (other.storage debug) := fun _ _ => rfl
    exact emptied.trans (taken.kept_issued rfl other held)
  next => exact allocateFromArenas_spares lawful layout classified found

end Small

section Calls
variable {debug : Bool} {mapper : PageMapper} {heap heap' : Heap} {owners : Owners} {size align pointer : Nat}

theorem allocate_spares (lawful : Lawful mapper) (layout : Layout debug heap owners)
    (found : allocate debug mapper size align heap = some (pointer, heap')) : Spares debug heap heap' owners.live pointer := by
  have refused : ∀ events, Spares debug heap { heap with events } owners.live 0 :=
    fun events => ⟨fun _ => ⟨rfl, rfl, rfl⟩, fun _ _ => fun _ _ => rfl⟩
  have asked : Layout debug (heap.log (.permission (mapper.allocationPermitted heap.events))) owners :=
    layout.refuse rfl rfl layout.owned.orderly
  unfold allocate at found
  dsimp only at found
  split at found
  next =>
    cases found
    exact refused _
  next =>
    split at found
    next =>
      cases found
      exact refused _
    next smallClass classified =>
      obtain ⟨spares, -⟩ := allocateSmall_spares lawful asked classified found
      exact ⟨fun null => ⟨(spares.refused null).memory, (spares.refused null).arena, (spares.refused null).lists⟩, spares.kept⟩
    next mappingSize classified =>
      split at found
      next =>
        cases found
        exact refused _
      next payloadOffset physicalSize layout' =>
        split at found
        next null =>
          cases found
          exact refused _
        next nonzero =>
          have valid := classify_valid classified
          obtain ⟨pages, enough, _⟩ := classify_direct classified
          obtain ⟨_, _, fits, whole⟩ := directLayout_spec valid.power pages layout'
          have positive := valid.positive
          obtain ⟨paged, unused⟩ := lawful _ physicalSize (by omega) whole nonzero
          have placed := asked.map classified layout' paged unused
          cases found
          refine ⟨fun null => absurd null (by omega), fun other held => ?_⟩
          have logged : Kept heap ((heap.log (.permission (mapper.allocationPermitted heap.events))).log
              (.mapping physicalSize (mapper.map (heap.log (.permission (mapper.allocationPermitted heap.events))).events physicalSize)))
              (other.storage debug) := fun _ _ => rfl
          exact logged.trans (placed.kept_issued rfl other held)

/-- A released block's storage is all that a release writes to. -/
theorem deallocate_keeps {block : Block} {live : List Block} (layout : Layout debug heap { owners with live := block :: live })
    (found : deallocate debug block.pointer block.size block.align heap = some heap') :
    ∀ other ∈ live, Kept heap heap' (other.storage debug) := by
  intro other held
  have apart := layout.owned.apart_from_others rfl other held
  have small : ∀ {index released}, block.place = some (block.pointer, index) →
      releaseSmall heap block.pointer index = some released → Kept heap released (other.storage debug) := by
    intro index released placed done
    have here := (layout.owned.placed block List.mem_cons_self).carved placed
    unfold releaseSmall at done
    rw [if_pos (layout.owned.carvings _ here).1] at done
    cases done
    refine kept_write (apart.of_within ?_)
    rw [storage_of_place placed]
    exact layout.owned.link_within here
  have logged : ∀ event, Kept heap (heap.log event) (other.storage debug) := fun event _ _ => rfl
  have placed := layout.owned.placed block List.mem_cons_self
  unfold deallocate at found
  rw [if_neg (layout.owned.pointer_nonzero List.mem_cons_self)] at found
  cases debug with
  | false =>
    rw [if_neg Bool.false_ne_true] at found
    cases placed with
    | small classified =>
      rw [classified] at found
      exact small (by simp only [Block.place, classified]) found
    | direct classified =>
      rw [classified] at found
      cases found
      exact logged _
  | true =>
    rw [if_pos rfl, layout.stored.validate List.mem_cons_self rfl, Option.bind_eq_bind, Option.bind_some] at found
    cases placed with
    | small classified =>
      have index := (classify_small classified).index
      have kind : ¬ (block.header true).kind = directKind := by
        simp only [Block.header, classified]
        exact Nat.ne_of_lt (Nat.lt_trans index (by decide))
      rw [if_neg kind] at found
      simp only [Block.header, classified] at found
      exact small (by simp only [Block.place, classified]) found
    | direct classified =>
      have kind : (block.header true).kind = directKind := by simp only [Block.header, classified]
      rw [if_pos kind] at found
      cases found
      exact logged _

end Calls

/-- The first bytes at one place are those that were at another. -/
def Preserves (heap heap' : Heap) (source target size : Nat) : Prop :=
  ∀ i < size, heap'.memory (target + i) = heap.memory (source + i)

section Resize
variable {debug : Bool} {mapper : PageMapper} {heap heap' : Heap} {owners : Owners} {block : Block} {live : List Block} {size : Nat}

theorem Layout.kept_payload (layout : Layout debug heap owners) (held : block ∈ owners.live) {before after : Heap}
    (kept : Kept before after (block.storage debug)) : Kept before after block.payload := kept.within (layout.owned.payload_within held)

theorem Layout.relabel_keeps (layout : Layout debug heap owners) (newest : owners.live = block :: live) :
    ∀ other ∈ owners.live, Kept heap (if debug then updateAllocationSize heap block.pointer size else heap) other.payload := by
  have member : block ∈ owners.live := by
    rw [newest]
    exact List.mem_cons_self
  intro other held
  split
  next debugging =>
    have inside := layout.owned.header_within member debugging
    have constants := sizes
    refine kept_write ?_
    rw [newest] at held
    cases held with
    | head =>
      have behind := inside.2
      simp only [Region.Disjoint, Block.payload]
      omega
    | tail _ still =>
      have apart := (layout.owned.apart_from_others newest other still).of_within inside.1
      have within := layout.owned.payload_within (by rw [newest]; exact List.mem_cons_of_mem _ still : other ∈ owners.live)
      have apart' := (apart.symm.of_within within).symm
      refine apart'.of_within ?_
      simp only [Region.Within, Block.headerRegion]
      omega
  next => exact .refl heap _

/-- The bytes of a block that moves, and of the ones that stay. -/
theorem moved_keeps {replacement : Nat} {middle : Heap} (lawful : Lawful mapper) (layout : Layout debug heap owners)
    (newest : owners.live = block :: live) (allocated : allocate debug mapper size block.align heap = some (replacement, middle))
    (fresh : replacement ≠ 0)
    (released : deallocate debug block.pointer block.size block.align
      { middle with memory := Lib.Memory.copy middle.memory block.pointer replacement (min block.size size) } = some heap') :
    (∀ other ∈ live, Kept heap heap' other.payload) ∧ Preserves heap heap' block.pointer replacement (min block.size size) := by
  have spares := allocate_spares lawful layout allocated
  obtain ⟨_, _, owners', same, after, issued⟩ := allocate_layout lawful layout size block.align
  cases allocated.symm.trans same
  rw [issue, if_neg fresh, newest] at issued
  have member : (⟨replacement, size, block.align⟩ : Block) ∈ owners'.live := by
    rw [issued]
    exact List.mem_cons_self
  have front : owners'.live.Perm (block :: ⟨replacement, size, block.align⟩ :: live) := by
    rw [issued]
    exact .swap _ _ _
  have copied := after.copy block.pointer member (Nat.min_le_right block.size size)
  have keeps := deallocate_keeps (copied.reorder front) released
  have room := after.owned.payload_within member
  constructor
  · intro other held
    have listed : other ∈ owners.live := by
      rw [newest]
      exact List.mem_cons_of_mem _ held
    refine layout.kept_payload listed ((spares.kept other listed).trans (Kept.trans ?_ (keeps other (List.mem_cons_of_mem _ held))))
    intro address holds
    have apart := (after.owned.apart_from_others issued other (List.mem_cons_of_mem _ held)).of_within room
    refine copy_outside fun written => apart.not_holds ?_ holds
    simp only [Region.Holds, Block.payload] at written ⊢
    omega
  · intro i small
    have own : (⟨replacement, size, block.align⟩ : Block).payload.Holds (replacement + i) := by
      simp only [Region.Holds, Block.payload]
      omega
    have old : block.payload.Holds (block.pointer + i) := by
      simp only [Region.Holds, Block.payload]
      omega
    have first : block ∈ owners.live := by
      rw [newest]
      exact List.mem_cons_self
    have late := keeps _ List.mem_cons_self (replacement + i) (room.holds own)
    have early := layout.kept_payload first (spares.kept block first) (block.pointer + i) old
    have inside : Lib.Memory.copy middle.memory block.pointer replacement (min block.size size) (replacement + i) =
        middle.memory (block.pointer + i) := by
      rw [copy_inside ⟨Nat.le_add_right _ _, by omega⟩, Nat.add_sub_cancel_left]
    exact late.trans (inside.trans early)

theorem reallocate_keeps {pointer : Nat} (lawful : Lawful mapper) (layout : Layout debug heap owners)
    (newest : owners.live = block :: live)
    (found : reallocate debug mapper block.pointer block.size size block.align heap = some (pointer, heap')) :
    (∀ other ∈ live, Kept heap heap' other.payload) ∧ (size = 0 → pointer = 0) ∧
      (size ≠ 0 → (pointer = 0 → Refused heap heap') ∧
        (pointer ≠ 0 → Preserves heap heap' block.pointer pointer (min block.size size))) := by
  have held : block ∈ owners.live := by
    rw [newest]
    exact List.mem_cons_self
  have listed : ∀ other ∈ live, other ∈ owners.live := by
    intro other later
    rw [newest]
    exact List.mem_cons_of_mem _ later
  have nonzero := layout.owned.pointer_nonzero held
  obtain ⟨oldKind, classified⟩ := layout.owned.classified held
  unfold reallocate at found
  rw [if_neg nonzero, checkedRecord_live layout held, Option.bind_eq_bind, Option.bind_some] at found
  split at found
  next zero =>
    obtain ⟨final, released, same⟩ := Option.map_eq_some_iff.mp found
    cases same
    have keeps := deallocate_keeps (newest ▸ layout : Layout debug heap { owners with live := block :: live }) released
    exact ⟨fun other later => layout.kept_payload (listed other later) (keeps other later), fun _ => rfl, fun some' => absurd zero some'⟩
  next positive =>
    have refused : Refused heap heap := ⟨rfl, rfl, rfl⟩
    split at found
    next _ newKind before after =>
      cases classified.symm.trans before
      rw [kind_checked classified, if_neg Bool.false_ne_true] at found
      split at found
      next same =>
        cases found
        have keeps := @Layout.relabel_keeps _ _ _ _ _ size layout newest
        refine ⟨fun other later => keeps other (listed other later), fun zero => absurd zero positive, fun _ => ⟨?_, fun _ i small => ?_⟩⟩
        · exact fun null => absurd null nonzero
        · refine keeps block held (block.pointer + i) ?_
          simp only [Region.Holds, Block.payload]
          omega
      next =>
        obtain ⟨⟨replacement, middle⟩, allocated, found⟩ := Option.bind_eq_some_iff.mp found
        dsimp only at found
        split at found
        next null =>
          cases found
          subst null
          have spares := allocate_spares lawful layout allocated
          refine ⟨fun other later => (spares.refused rfl).kept, fun _ => rfl, fun _ => ⟨fun _ => spares.refused rfl, ?_⟩⟩
          exact fun some' => absurd rfl some'
        next fresh =>
          obtain ⟨final, released, same⟩ := Option.map_eq_some_iff.mp found
          cases same
          obtain ⟨others, own⟩ := moved_keeps lawful layout newest allocated fresh released
          exact ⟨others, fun zero => absurd zero positive, fun _ => ⟨fun null => absurd null fresh, fun _ => own⟩⟩
    next =>
      cases found
      exact ⟨fun other _ => .refl _ _, fun _ => rfl, fun _ => ⟨fun _ => refused, fun some' => absurd rfl some'⟩⟩

end Resize

section Reachable
variable {debug : Bool} {mapper : PageMapper} {heap : Heap} {live : List Block}

/-- What a reallocation of a live block comes to. -/
def Reallocated (debug : Bool) (heap heap' : Heap) (live : List Block) (block : Block) (size reply : Nat) : Prop :=
  if size = 0 then reply = 0 ∧ Sound debug heap' (live.erase block)
  else
    reply = 0 ∧ Refused heap heap' ∧ Sound debug heap' live ∨
      reply ≠ 0 ∧ Preserves heap heap' block.pointer reply (min block.size size) ∧
        Sound debug heap' (⟨reply, size, block.align⟩ :: live.erase block)

/-- A reallocation returns null with everything as it was, or a block with the
old contents in place of the old block, and leaves the others' contents. The
loop for a small block ends, with null only when the mapper has nothing. -/
theorem reallocate_sound (lawful : Lawful mapper) (reachable : Reachable debug mapper heap live) :
    (∀ block ∈ live, ∀ size, ∃ reply heap', reallocate debug mapper block.pointer block.size size block.align heap = some (reply, heap') ∧
      (∀ other ∈ live.erase block, Kept heap heap' other.payload) ∧ Reallocated debug heap heap' live block size reply) ∧
    ∀ size align smallClass, classify size align = some (.small smallClass) →
      ∃ reply heap', allocateSmall debug mapper smallClass size align heap = some (reply, heap') ∧
        (reply = 0 → mapper.map heap.events arenaSize = 0) := by
  obtain ⟨owners, layout, rfl⟩ := reachable.layout lawful
  refine ⟨fun block held size => ?_, fun size align smallClass classified => ?_⟩
  · have front := layout.reorder (List.perm_cons_erase held)
    obtain ⟨reply, heap', owners', found, after, settled⟩ := reallocate_layout lawful front rfl size
    obtain ⟨others, zero, positive⟩ := reallocate_keeps lawful front rfl found
    refine ⟨reply, heap', found, others, ?_⟩
    have sound := (after.reorder settled).sound
    rw [Reallocated]
    rw [reissue] at settled sound
    split
    next empty =>
      rw [if_pos empty] at sound
      exact ⟨zero empty, sound⟩
    next some' =>
      obtain ⟨refused, preserves⟩ := positive some'
      rw [if_neg some'] at settled sound
      by_cases null : reply = 0
      · rw [if_pos null] at settled
        exact .inl ⟨null, refused null, (after.reorder (settled.trans (List.perm_cons_erase held).symm)).sound⟩
      · rw [if_neg null] at sound
        exact .inr ⟨null, preserves null, sound⟩
  · obtain ⟨reply, heap', owners', found, -⟩ := allocateSmall_layout lawful layout classified
    exact ⟨reply, heap', found, (allocateSmall_spares lawful layout classified found).2⟩

end Reachable

section Example

def started : Heap := ((allocate false stacking 17 1 (.new fun _ => 0)).getD (0, .new fun _ => 0)).2

theorem started_allocated : allocate false stacking 17 1 (.new fun _ => 0) = some (4128, started) := by
  have served : (allocate false stacking 17 1 (.new fun _ => 0)).map Prod.fst = some 4128 := by decide +kernel
  obtain ⟨⟨reply, heap⟩, found, same⟩ := Option.map_eq_some_iff.mp served
  rw [started, found]
  cases same
  rfl

theorem started_reachable : Reachable false stacking started [⟨4128, 17, 1⟩] := by
  have settled : settle [] 4128 (.allocate 17 1) = [⟨4128, 17, 1⟩] := by decide
  rw [← settled]
  exact .call (.allocate 17 1) (.start fun _ => 0) trivial started_allocated

theorem started_grows : ∃ reply heap', reallocate false stacking 4128 17 40000 1 started = some (reply, heap') ∧
    (∀ other ∈ ([⟨4128, 17, 1⟩] : List Block).erase ⟨4128, 17, 1⟩, Kept started heap' other.payload) ∧
    Reallocated false started heap' [⟨4128, 17, 1⟩] ⟨4128, 17, 1⟩ 40000 reply :=
  (reallocate_sound stacking_lawful started_reachable).1 ⟨4128, 17, 1⟩ List.mem_cons_self 40000

/-- A block resized to nothing is released: null comes back, and its place is
given out again. -/
theorem resized_to_nothing : Reachable false stacking started [⟨4128, 17, 1⟩] ∧
    ¬∀ size, ∃ reply heap', reallocate false stacking 4128 17 size 1 started = some (reply, heap') ∧
      (reply = 0 → Sound false heap' [⟨4128, 17, 1⟩]) := by
  refine ⟨started_reachable, fun all => ?_⟩
  obtain ⟨reply, heap', found, sound⟩ := all 0
  have freed : (reallocate false stacking 4128 17 0 1 started).map (fun result => (result.1, result.2.freeLists 2)) = some (0, 4128) := by
    decide
  rw [found] at freed
  have both := Prod.mk.inj (Option.some.inj freed)
  obtain ⟨arenas, free, -, lists, -, places, -⟩ := (sound both.1).kept
  have chain := lists 2 (by decide)
  rw [both.2] at chain
  obtain ⟨null, -⟩ | ⟨-, rest, nodes, -⟩ := chain.cases
  · cases null
  · have member : (4128, 2) ∈ free := by
      obtain ⟨before, after, split, -⟩ := listOf_split nodes
      rw [split]
      exact List.mem_append_right _ List.mem_cons_self
    have apart := places _ member _ List.mem_cons_self
    have same : Block.storage false ⟨4128, 17, 1⟩ = slot false (4128, 2) := by decide
    have some' : 0 < (slot false (4128, 2)).size := by decide
    rw [same] at apart
    simp only [Region.Disjoint] at apart
    omega

end Example

end Rue.Proofs.Allocator
