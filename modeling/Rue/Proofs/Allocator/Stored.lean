import Rue.Proofs.Allocator.Layout

/-! What the allocator keeps in memory: arena headers, the links of free blocks
and, in debug builds, the headers of live blocks. Writes elsewhere do not matter. -/

namespace Rue.Proofs.Allocator
open Rue.Runtime.Allocator Rue.Lib.Memory

namespace Block

/-- The header that goes with a live block. -/
def header (debug : Bool) (block : Block) : AllocationHeader :=
  match classify block.size block.align with
  | some (.small smallClass) => ⟨debugHeaderMagic, block.size, block.align, 0, 0, smallClass.index⟩
  | some (.direct mappingSize) =>
    let region := mapping debug block.pointer mappingSize block.align
    ⟨debugHeaderMagic, block.size, block.align, region.base, region.size, directKind⟩
  | none => ⟨debugHeaderMagic, block.size, block.align, 0, 0, directKind⟩

def headerRegion (block : Block) : Region := ⟨block.pointer - allocationHeaderSize, allocationHeaderSize⟩

end Block

def link (place : Nat × Nat) : Region := ⟨place.1, 8⟩

/-- Where the allocator's own data are. -/
def Owners.privates (debug : Bool) (owners : Owners) : List Region :=
  (if debug then owners.live.map Block.headerRegion else []) ++ (owners.free.map link ++ owners.arenas.map arenaHeader)

def listOf (free : List (Nat × Nat)) (index : Nat) : List Nat := (free.filter (·.2 = index)).map (·.1)

structure Stored (debug : Bool) (heap : Heap) (owners : Owners) : Prop where
  arenas : Chain heap.read heap.currentArena owners.arenas
  sizes : ∀ arena ∈ owners.arenas, heap.read (arena + 8) = arenaSize
  offset : ∀ arena ∈ owners.arenas.head?, heap.read (arena + 16) = owners.offset
  lists : ∀ index < classCount, Chain heap.read (heap.freeLists index) (listOf owners.free index)
  headers : debug = true → ∀ block ∈ owners.live, readAllocationHeader heap block.pointer = block.header debug

section Words
variable {heap heap' : Heap} {address value other : Nat}

theorem read_congr {region : Region} (agree : ∀ other, region.Holds other → heap'.memory other = heap.memory other)
    (inside : (Region.mk address 8).Within region) : heap'.read address = heap.read address :=
  load_congr fun other held => agree other (inside.holds held)

theorem read_write_self (fits : value ≤ usizeMax) : (heap.write address value).read address = value := by
  have constants := sizes
  unfold Heap.read Heap.write
  rw [load_store]
  exact Nat.mod_eq_of_lt (by omega)

theorem read_write_of_disjoint (apart : Region.Disjoint ⟨address, 8⟩ ⟨other, 8⟩) :
    (heap.write address value).read other = heap.read other := load_store_disjoint apart

theorem write_outside (region : Region) (inside : (Region.mk address 8).Within region) (outside : ¬ region.Holds other) :
    (heap.write address value).memory other = heap.memory other :=
  store_outside fun held => outside (inside.holds held)

structure Encodable (header : AllocationHeader) : Prop where
  magic : header.magic ≤ usizeMax
  size : header.size ≤ usizeMax
  align : header.align ≤ usizeMax
  rawPointer : header.rawPointer ≤ usizeMax
  mappingSize : header.mappingSize ≤ usizeMax
  kind : header.kind ≤ usizeMax

theorem readAllocationHeader_write {header : AllocationHeader} (fits : Encodable header) (pointer : Nat) :
    readAllocationHeader (writeAllocationHeader heap pointer header) pointer = header := by
  obtain ⟨magic, size, align, rawPointer, mappingSize, kind⟩ := fits
  unfold readAllocationHeader writeAllocationHeader
  simp (disch := first | assumption | (simp only [Region.Disjoint]; omega)) only [read_write_of_disjoint, read_write_self]

theorem writeAllocationHeader_outside {header : AllocationHeader} {pointer : Nat}
    (outside : ¬ Region.Holds ⟨pointer - allocationHeaderSize, allocationHeaderSize⟩ other) :
    (writeAllocationHeader heap pointer header).memory other = heap.memory other := by
  have constants := sizes
  unfold writeAllocationHeader
  simp (disch := simp only [Region.Within]; omega) only [write_outside ⟨pointer - allocationHeaderSize, allocationHeaderSize⟩ _ outside]

theorem readAllocationHeader_congr {block : Block}
    (agree : ∀ address, (Region.mk address 8).Within block.headerRegion → heap'.read address = heap.read address) :
    readAllocationHeader heap' block.pointer = readAllocationHeader heap block.pointer := by
  have constants := sizes
  simp only [Region.Within, Block.headerRegion] at agree
  unfold readAllocationHeader
  simp (disch := omega) only [agree]

end Words

section Frames
variable {debug : Bool} {heap heap' : Heap} {owners : Owners} {events : List Event}

theorem Stored.frame (stored : Stored debug heap owners) (arena : heap'.currentArena = heap.currentArena)
    (lists : heap'.freeLists = heap.freeLists)
    (agree : ∀ region ∈ owners.privates debug, ∀ address, region.Holds address → heap'.memory address = heap.memory address) :
    Stored debug heap' owners := by
  have constants := Allocator.sizes
  have words : ∀ region ∈ owners.privates debug, ∀ address, (Region.mk address 8).Within region → heap'.read address = heap.read address :=
    fun region member address inside => read_congr (agree region member) inside
  have headers : ∀ arena ∈ owners.arenas, ∀ address, (Region.mk address 8).Within (arenaHeader arena) →
      heap'.read address = heap.read address := fun arena held =>
    words _ (List.mem_append_right _ (List.mem_append_right _ (List.mem_map_of_mem held)))
  refine ⟨?_, ?_, ?_, ?_, ?_⟩
  · rw [arena]
    refine stored.arenas.frame fun node held => headers node held node ?_
    simp only [Region.Within, arenaHeader]
    omega
  · intro node held
    rw [headers node held _ (by simp only [Region.Within, arenaHeader]; omega)]
    exact stored.sizes node held
  · intro node held
    rw [headers node (List.mem_of_head? held) _ (by simp only [Region.Within, arenaHeader]; omega)]
    exact stored.offset node held
  · intro index small
    rw [lists]
    refine (stored.lists index small).frame fun node held => ?_
    obtain ⟨place, member, rfl⟩ := List.mem_map.mp held
    have free := List.mem_of_mem_filter member
    refine words (link place) ?_ _ ⟨Nat.le_refl _, Nat.le_refl _⟩
    exact List.mem_append_right _ (List.mem_append_left _ (List.mem_map_of_mem free))
  · intro debugging block held
    have member : block.headerRegion ∈ owners.privates debug := by
      refine List.mem_append_left _ ?_
      rw [if_pos debugging]
      exact List.mem_map_of_mem held
    rw [← stored.headers debugging block held]
    exact readAllocationHeader_congr fun address => words _ member address

variable {block : Block}

/-- A header lies in front of its block, in the block's storage. -/
theorem Owned.header_within (owned : Owned debug events owners) (held : block ∈ owners.live) (debugging : debug = true) :
    block.headerRegion.Within (block.storage debug) ∧ allocationHeaderSize ≤ block.pointer := by
  have constants := Allocator.sizes
  have size : headerSize debug = allocationHeaderSize := if_pos debugging
  cases owned.placed block held with
  | small classified placed =>
    have behind := (owned.carvings _ placed).2.2
    simp only [Block.storage, classified, slot, Region.Within, Block.headerRegion]
    dsimp only at behind
    omega
  | direct classified layout _ behind =>
    have spec := directLayout_spec (classify_valid classified).power (classify_direct classified).1 layout
    simp only [Block.storage, classified, mapping, layout, Region.Within, Block.headerRegion]
    omega

/-- A block's storage has room for what was asked for. -/
theorem Owned.payload_within (owned : Owned debug events owners) (held : block ∈ owners.live) :
    block.payload.Within (block.storage debug) := by
  cases owned.placed block held with
  | @small smallClass classified placed =>
    have fits := classify_small classified
    have behind := (owned.carvings _ placed).2.2
    have size := fits.size
    rw [fits.blockSize] at size
    simp only [Block.storage, classified, slot, Region.Within, Block.payload]
    dsimp only at behind
    omega
  | direct classified layout _ behind =>
    obtain ⟨pages, enough, _⟩ := classify_direct classified
    have spec := directLayout_spec (classify_valid classified).power pages layout
    simp only [Block.storage, classified, mapping, layout, Region.Within, Block.payload]
    omega

theorem Owned.link_within (owned : Owned debug events owners) {place : Nat × Nat} (member : place ∈ carved events) :
    (link place).Within (slot debug place) := by
  obtain ⟨small, _, behind⟩ := owned.carvings place member
  have size := (classSize_bounds small).1
  simp only [Region.Within, link, slot]
  omega

/-- The allocator's own data are in memory that is in use. -/
theorem Owned.privates_within (owned : Owned debug events owners) (part : Owners) (live : ∀ block ∈ part.live, block ∈ owners.live)
    (free : ∀ place ∈ part.free, place ∈ owners.free) :
    ∀ region ∈ part.privates debug, ∃ cell ∈ part.used debug, region.Within cell := by
  intro region member
  rcases List.mem_append.mp member with header | later
  · split at header
    next debugging =>
      obtain ⟨block, listed, rfl⟩ := List.mem_map.mp header
      exact ⟨_, List.mem_append_left _ (List.mem_map_of_mem listed), (owned.header_within (live block listed) debugging).1⟩
    next => cases header
  · rcases List.mem_append.mp later with linked | arena
    · obtain ⟨place, listed, rfl⟩ := List.mem_map.mp linked
      exact ⟨_, List.mem_append_right _ (List.mem_append_left _ (List.mem_map_of_mem listed)),
        owned.link_within (owned.freed place (free place listed))⟩
    · exact ⟨region, List.mem_append_right _ (List.mem_append_right _ arena), Nat.le_refl _, Nat.le_refl _⟩

/-- A block's storage is apart from the allocator's data about the others. -/
theorem Owned.apart_from_rest {live : List Block} {region : Region} (owned : Owned debug events owners)
    (newest : owners.live = block :: live) (inside : region.Within (block.storage debug)) :
    ∀ other ∈ Owners.privates debug { owners with live }, region.Disjoint other := by
  intro other member
  have used : owners.used debug = block.storage debug :: Owners.used debug { owners with live } := by
    simp only [Owners.used, newest, List.map_cons, List.cons_append]
  have apart := (List.pairwise_append.mp owned.apart).2.1
  rw [used] at apart
  obtain ⟨cell, held, within⟩ := owned.privates_within { owners with live } (fun _ listed => by rw [newest]; exact List.mem_cons_of_mem _ listed) (fun _ => id) other member
  exact (((List.pairwise_cons.mp apart).1 cell held).of_within inside).symm.of_within within |>.symm

theorem Owned.apart_from_payload (owned : Owned debug events owners) (held : block ∈ owners.live) :
    ∀ region ∈ owners.privates debug, block.payload.Disjoint region := by
  have sorted := owned.reorder (List.perm_cons_erase held)
  have within := owned.payload_within held
  have rest := sorted.apart_from_rest rfl within
  intro region member
  rcases List.mem_append.mp member with header | later
  · split at header
    next debugging =>
      obtain ⟨other, listed, rfl⟩ := List.mem_map.mp header
      cases (List.perm_cons_erase held).mem_iff.mp listed with
      | head =>
        have behind := (owned.header_within held debugging).2
        simp only [Region.Disjoint, Block.payload, Block.headerRegion]
        omega
      | tail _ still =>
        refine rest _ (List.mem_append_left _ ?_)
        rw [if_pos debugging]
        exact List.mem_map_of_mem still
    next => cases header
  · exact rest region (List.mem_append_right _ later)

theorem Stored.write (stored : Stored debug heap owners) (owned : Owned debug heap.events owners) {memory : Bytes}
    (kept : ∀ address, memory address ≠ heap.memory address →
      (∃ block ∈ owners.live, block.payload.Holds address) ∨ ∀ region ∈ mapped heap.events, ¬ region.Holds address) :
    Stored debug { heap with memory } owners := by
  refine stored.frame rfl rfl fun region member address holds => ?_
  by_contra changed
  rcases kept address changed with ⟨block, held, inside⟩ | outside
  · exact (owned.apart_from_payload held region member).not_holds inside holds
  · obtain ⟨cell, used, within⟩ := owned.privates_within owners (fun _ => id) (fun _ => id) region member
    obtain ⟨mapping, listed, covers⟩ := owned.inside cell used
    exact outside mapping listed (covers.holds (within.holds holds))

end Frames

end Rue.Proofs.Allocator
