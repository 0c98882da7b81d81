import Rue.Proofs.Allocator.Classes
import Mathlib.Data.List.Perm.Basic

/-! Who owns the mapped memory: live blocks, free blocks, arena headers and the
rest of the current arena are apart from each other. -/

namespace Rue.Proofs.Allocator
open Rue.Runtime.Allocator Rue.Lib.Memory

/-- The regions mapped and not yet unmapped. -/
def mapped : List Event → List Region
  | [] => []
  | .mapping size pointer :: events => if pointer = 0 then mapped events else ⟨pointer, size⟩ :: mapped events
  | .unmapping pointer size :: events => (mapped events).erase ⟨pointer, size⟩
  | .permission _ :: events | .carving .. :: events => mapped events

/-- The blocks cut from arenas, with their classes. -/
def carved : List Event → List (Nat × Nat)
  | [] => []
  | .carving pointer index :: events => (pointer, index) :: carved events
  | _ :: events => carved events

/-- Every region is unmapped once, after it was mapped. -/
def Orderly : List Event → Prop
  | [] => True
  | .unmapping pointer size :: events => ⟨pointer, size⟩ ∈ mapped events ∧ Orderly events
  | _ :: events => Orderly events

structure Paged (region : Region) : Prop where
  nonzero : region.base ≠ 0
  aligned : pageSize ∣ region.base
  fits : region.base + region.size ≤ usizeMax

/-- The mapper answers with null or with pages that are not in use. -/
def Lawful (mapper : PageMapper) : Prop :=
  ∀ events size, 0 < size → pageSize ∣ size → mapper.map events size ≠ 0 →
    Paged ⟨mapper.map events size, size⟩ ∧ ∀ region ∈ mapped events, Region.Disjoint ⟨mapper.map events size, size⟩ region

structure Block where
  pointer : Nat
  size : Nat
  align : Nat
  deriving DecidableEq, Repr

section Regions
variable (debug : Bool)

def headerSize : Nat := if debug then allocationHeaderSize else 0

def slot (place : Nat × Nat) : Region := ⟨place.1 - headerSize debug, headerSize debug + classSize place.2⟩

def mapping (pointer mappingSize align : Nat) : Region :=
  match directLayout debug mappingSize align with
  | some (payloadOffset, physicalSize) => ⟨pointer - payloadOffset, physicalSize⟩
  | none => ⟨pointer, mappingSize⟩

def arenaHeader (arena : Nat) : Region := ⟨arena, arenaHeaderSize⟩

variable {debug}

theorem directLayout_spec {mappingSize align payloadOffset physicalSize : Nat} (valid : ∃ shift ≤ 12, align = 2 ^ shift)
    (pages : pageSize ∣ mappingSize) (found : directLayout debug mappingSize align = some (payloadOffset, physicalSize)) :
    align ∣ payloadOffset ∧ headerSize debug ≤ payloadOffset ∧ payloadOffset + mappingSize ≤ physicalSize ∧ pageSize ∣ physicalSize := by
  obtain ⟨shift, low, rfl⟩ := valid
  unfold directLayout at found
  unfold headerSize
  cases debug with
  | false =>
    cases found
    exact ⟨Nat.dvd_zero _, Nat.le_refl _, by omega, pages⟩
  | true =>
    obtain ⟨offset, aligned, found⟩ := Option.bind_eq_some_iff.mp found
    obtain ⟨sum, added, found⟩ := Option.bind_eq_some_iff.mp found
    obtain ⟨rounded, multiple, found⟩ := Option.bind_eq_some_iff.mp found
    cases found
    obtain ⟨divides, covers, _, _⟩ := checkedAlignUp_spec (by omega) aligned
    obtain ⟨rfl, fits⟩ := checkedAdd_eq_some added
    obtain ⟨whole, enough, _⟩ := checkedNextMultipleOf_spec (by decide) fits multiple
    exact ⟨divides, covers, by omega, whole⟩

end Regions

namespace Block

def payload (block : Block) : Region := ⟨block.pointer, block.size⟩

def place (block : Block) : Option (Nat × Nat) :=
  match classify block.size block.align with
  | some (.small smallClass) => some (block.pointer, smallClass.index)
  | _ => none

variable (debug : Bool)

/-- The memory that a block occupies. -/
def storage (block : Block) : Region :=
  match classify block.size block.align with
  | some (.small smallClass) => slot debug (block.pointer, smallClass.index)
  | some (.direct mappingSize) => mapping debug block.pointer mappingSize block.align
  | none => block.payload

inductive Placed (events : List Event) (block : Block) : Prop where
  | small {smallClass} (classified : classify block.size block.align = some (.small smallClass))
      (placed : (block.pointer, smallClass.index) ∈ carved events)
  | direct {mappingSize payloadOffset physicalSize} (classified : classify block.size block.align = some (.direct mappingSize))
      (layout : directLayout debug mappingSize block.align = some (payloadOffset, physicalSize))
      (placed : ⟨block.pointer - payloadOffset, physicalSize⟩ ∈ mapped events) (behind : payloadOffset ≤ block.pointer)

end Block

/-- Who has what: the live blocks, the arenas with the current one in front, how
far that one is used, and the free blocks with their classes. -/
structure Owners where
  live : List Block
  arenas : List Nat
  offset : Nat
  free : List (Nat × Nat)

namespace Owners

/-- What is left of the current arena. -/
def tail (owners : Owners) : List Region :=
  (owners.arenas.head?.map fun arena => ⟨arena + owners.offset, arenaSize - owners.offset⟩).toList

def used (debug : Bool) (owners : Owners) : List Region :=
  owners.live.map (Block.storage debug) ++ (owners.free.map (slot debug) ++ owners.arenas.map arenaHeader)

def cells (debug : Bool) (owners : Owners) : List Region := owners.tail ++ owners.used debug

end Owners

/-- Everything is in mapped memory and apart from everything else. -/
structure Owned (debug : Bool) (events : List Event) (owners : Owners) : Prop where
  apart : (owners.cells debug).Pairwise Region.Disjoint
  inside : ∀ cell ∈ owners.used debug, ∃ region ∈ mapped events, cell.Within region
  pages : ∀ region ∈ mapped events, Paged region
  arenas : ∀ arena ∈ owners.arenas, ⟨arena, arenaSize⟩ ∈ mapped events
  offset : arenaHeaderSize ≤ owners.offset ∧ owners.offset ≤ arenaSize
  placed : ∀ block ∈ owners.live, block.Placed debug events
  freed : ∀ place ∈ owners.free, place ∈ carved events
  carvings : ∀ place ∈ carved events, place.2 < classCount ∧ classAlign place.2 ∣ place.1 ∧ headerSize debug < place.1
  retained : ∀ place ∈ carved events, place ∈ owners.free ∨ ∃ block ∈ owners.live, block.place = some place
  once : (carved events).Pairwise fun first second => first.1 ≠ second.1
  orderly : Orderly events

section Moves
variable {debug : Bool} {events : List Event} {owners : Owners}

variable {block : Block} {place : Nat × Nat}

theorem storage_of_place (placed : block.place = some place) :
    block.storage debug = slot debug place := by
  unfold Block.place at placed
  unfold Block.storage
  split at placed <;> cases placed
  next found => rw [found]

theorem Block.Placed.mono {later : List Event} (placed : block.Placed debug events)
    (carves : ∀ place ∈ carved events, place ∈ carved later) (maps : ∀ region ∈ mapped events, region ∈ mapped later) :
    block.Placed debug later := by
  cases placed with
  | small classified placed => exact .small classified (carves _ placed)
  | direct classified layout placed behind => exact .direct classified layout (maps _ placed) behind

theorem Block.Placed.carved (good : block.Placed debug events) (placed : block.place = some place) :
    place ∈ Allocator.carved events := by
  unfold Block.place at placed
  cases good with
  | small classified found =>
    rw [classified] at placed
    cases placed
    exact found
  | direct classified =>
    rw [classified] at placed
    cases placed

private theorem perm_apart {cells cells' : List Region} (same : cells.Perm cells') (apart : cells.Pairwise Region.Disjoint) :
    cells'.Pairwise Region.Disjoint := same.pairwise apart Region.Disjoint.symm

variable {live : List Block}

theorem Owned.share {free : List (Nat × Nat)} (owned : Owned debug events owners)
    (same : (owners.used debug).Perm (Owners.used debug { owners with live, free }))
    (placed : ∀ block ∈ live, block.Placed debug events) (freed : ∀ place ∈ free, place ∈ carved events)
    (retained : ∀ place ∈ carved events, place ∈ free ∨ ∃ block ∈ live, block.place = some place) :
    Owned debug events { owners with live, free } := by
  refine { owned with apart := perm_apart (List.Perm.append_left _ same) owned.apart, inside := ?_, placed, freed, retained }
  exact fun cell member => owned.inside cell (same.mem_iff.mpr member)

theorem Owned.reorder (owned : Owned debug events owners) (same : owners.live.Perm live) :
    Owned debug events { owners with live } := by
  refine owned.share (List.Perm.append_right _ (same.map _)) ?_ owned.freed fun place member => ?_
  · exact fun block member => owned.placed block (same.mem_iff.mpr member)
  · rcases owned.retained place member with free | ⟨block, held, at'⟩
    · exact Or.inl free
    · exact Or.inr ⟨block, same.mem_iff.mp held, at'⟩

theorem Owned.take {before after : List (Nat × Nat)}
    (owned : Owned debug events { owners with free := before ++ place :: after }) (placed : block.place = some place)
    (good : block.Placed debug events) :
    Owned debug events { owners with live := block :: owners.live, free := before ++ after } := by
  refine owned.share ?_ (List.forall_mem_cons.mpr ⟨good, owned.placed⟩) (fun other member => owned.freed other ?_) fun other member => ?_
  · simp only [Owners.used, List.map_append, List.map_cons, storage_of_place placed, List.cons_append, List.append_assoc]
    rw [← List.append_assoc, ← List.append_assoc]
    exact List.perm_middle
  · rcases List.mem_append.mp member with front | back
    · exact List.mem_append_left _ front
    · exact List.mem_append_right _ (List.mem_cons_of_mem _ back)
  · rcases owned.retained other member with free | ⟨holder, held, at'⟩
    · rcases List.mem_append.mp free with front | back
      · exact Or.inl (List.mem_append_left _ front)
      · cases back with
        | head => exact Or.inr ⟨block, List.mem_cons_self, placed⟩
        | tail _ later => exact Or.inl (List.mem_append_right _ later)
    · exact Or.inr ⟨holder, List.mem_cons_of_mem _ held, at'⟩

theorem Owned.give
    (owned : Owned debug events { owners with live := block :: live }) (placed : block.place = some place) :
    Owned debug events { owners with live, free := place :: owners.free } := by
  have here := (owned.placed block List.mem_cons_self).carved placed
  refine owned.share ?_ (fun other held => owned.placed other (List.mem_cons_of_mem _ held))
    (List.forall_mem_cons.mpr ⟨here, owned.freed⟩) fun other member => ?_
  · simp only [Owners.used, List.map_cons, storage_of_place placed, List.cons_append]
    exact List.perm_middle.symm
  · rcases owned.retained other member with free | ⟨holder, held, at'⟩
    · exact Or.inl (List.mem_cons_of_mem _ free)
    · cases held with
      | head =>
        cases placed.symm.trans at'
        exact Or.inl List.mem_cons_self
      | tail _ still => exact Or.inr ⟨holder, still, at'⟩

/-- A live block stands for another size of the same kind. -/
theorem Owned.relabel {size : Nat}
    (owned : Owned debug events { owners with live := block :: live })
    (kind : classify size block.align = classify block.size block.align) :
    Owned debug events { owners with live := { block with size } :: live } := by
  have storage : Block.storage debug { block with size } = block.storage debug := by
    cases owned.placed block List.mem_cons_self with
    | small classified | direct classified => simp only [Block.storage, kind, classified]
  have place : Block.place { block with size } = block.place := by simp only [Block.place, kind]
  refine owned.share ?_ (List.forall_mem_cons.mpr ⟨?_, ?_⟩) owned.freed fun other member => ?_
  · simp only [Owners.used, List.map_cons, storage]
    exact .refl _
  · cases owned.placed block List.mem_cons_self with
    | small classified placed => exact .small (kind.trans classified) placed
    | direct classified layout placed behind => exact .direct (kind.trans classified) layout placed behind
  · exact fun held still => owned.placed held (List.mem_cons_of_mem _ still)
  · rcases owned.retained other member with free | ⟨holder, held, at'⟩
    · exact Or.inl free
    · cases held with
      | head => exact Or.inr ⟨_, List.mem_cons_self, place.trans at'⟩
      | tail _ still => exact Or.inr ⟨holder, List.mem_cons_of_mem _ still, at'⟩

theorem Owned.ask {event : Event} (owned : Owned debug events owners) (maps : mapped (event :: events) = mapped events)
    (carves : carved (event :: events) = carved events) (orderly : Orderly (event :: events)) :
    Owned debug (event :: events) owners := by
  refine ⟨owned.apart, ?_, ?_, ?_, owned.offset, ?_, ?_, ?_, ?_, ?_, orderly⟩
  · rw [maps]
    exact owned.inside
  · rw [maps]
    exact owned.pages
  · rw [maps]
    exact owned.arenas
  · exact fun block held => (owned.placed block held).mono (fun _ => carves ▸ id) (fun _ => maps ▸ id)
  · rw [carves]
    exact owned.freed
  · rw [carves]
    exact owned.carvings
  · rw [carves]
    exact owned.retained
  · rw [carves]
    exact owned.once

theorem Owned.tail_inside (owned : Owned debug events owners) :
    ∀ cell ∈ owners.tail, ∃ arena ∈ owners.arenas, cell = ⟨arena + owners.offset, arenaSize - owners.offset⟩ ∧
      cell.Within ⟨arena, arenaSize⟩ := by
  intro cell member
  unfold Owners.tail at member
  cases found : owners.arenas.head? with
  | none =>
    rw [found] at member
    cases member
  | some arena =>
    rw [found] at member
    have used := owned.offset
    obtain rfl := List.mem_singleton.mp member
    refine ⟨arena, List.mem_of_head? found, rfl, ?_⟩
    simp only [Region.Within]
    omega

/-- Nothing that is owned reaches into a region that the mapper hands out. -/
theorem Owned.fresh (owned : Owned debug events owners) {region : Region}
    (unused : ∀ other ∈ mapped events, region.Disjoint other) : ∀ cell ∈ owners.cells debug, region.Disjoint cell := by
  intro cell member
  rcases List.mem_append.mp member with rest | used
  · obtain ⟨arena, held, _, within⟩ := owned.tail_inside cell rest
    exact ((unused _ (owned.arenas arena held)).symm.of_within within).symm
  · obtain ⟨other, held, within⟩ := owned.inside cell used
    exact ((unused other held).symm.of_within within).symm

/-- A new arena goes in front of the others. What was left of the current one is lost. -/
theorem Owned.expand {base : Nat} (owned : Owned debug events owners) (paged : Paged ⟨base, arenaSize⟩)
    (unused : ∀ region ∈ mapped events, Region.Disjoint ⟨base, arenaSize⟩ region) :
    Owned debug (.mapping arenaSize base :: events)
      { owners with arenas := base :: owners.arenas, offset := arenaHeaderSize } := by
  have constants := sizes
  have now : mapped (.mapping arenaSize base :: events) = ⟨base, arenaSize⟩ :: mapped events := if_neg paged.nonzero
  have more : ∀ region ∈ mapped events, region ∈ mapped (.mapping arenaSize base :: events) := by
    rw [now]
    exact fun region => List.mem_cons_of_mem _
  have fresh : ∀ cell ∈ owners.used debug, Region.Disjoint ⟨base, arenaSize⟩ cell := fun cell member =>
    owned.fresh unused cell (List.mem_append_right _ member)
  have header : Region.Within (arenaHeader base) ⟨base, arenaSize⟩ := by
    simp only [Region.Within, arenaHeader]
    omega
  have rest : Region.Within ⟨base + arenaHeaderSize, arenaSize - arenaHeaderSize⟩ ⟨base, arenaSize⟩ := by
    simp only [Region.Within]
    omega
  have used : (arenaHeader base :: owners.used debug).Perm
      (Owners.used debug { owners with arenas := base :: owners.arenas, offset := arenaHeaderSize }) := by
    simp only [Owners.used, List.map_cons]
    rw [← List.append_assoc, ← List.append_assoc]
    exact List.perm_middle.symm
  refine ⟨perm_apart (used.cons _) ?_, fun cell member => ?_, ?_, ?_, ⟨Nat.le_refl _, (by decide : arenaHeaderSize ≤ arenaSize)⟩, ?_,
    owned.freed, owned.carvings, owned.retained, owned.once, owned.orderly⟩
  · refine List.pairwise_cons.mpr ⟨?_, List.pairwise_cons.mpr ⟨?_, (List.pairwise_append.mp owned.apart).2.1⟩⟩
    · intro cell member
      cases member with
      | head => exact Or.inr (Nat.le_refl _)
      | tail _ old => exact (fresh cell old).of_within rest
    · exact fun cell old => (fresh cell old).of_within header
  · rw [now]
    cases used.mem_iff.mpr member with
    | head => exact ⟨_, List.mem_cons_self, header⟩
    | tail _ old =>
      obtain ⟨region, held, within⟩ := owned.inside cell old
      exact ⟨region, List.mem_cons_of_mem _ held, within⟩
  · rw [now]
    exact List.forall_mem_cons.mpr ⟨paged, owned.pages⟩
  · exact List.forall_mem_cons.mpr ⟨by rw [now]; exact List.mem_cons_self, fun arena held => more _ (owned.arenas arena held)⟩
  · exact fun block held => (owned.placed block held).mono (fun _ => id) more

theorem Owned.map {mappingSize payloadOffset physicalSize base : Nat} (owned : Owned debug events owners)
    (classified : classify block.size block.align = some (.direct mappingSize))
    (layout : directLayout debug mappingSize block.align = some (payloadOffset, physicalSize))
    (pointer : block.pointer = base + payloadOffset) (paged : Paged ⟨base, physicalSize⟩)
    (unused : ∀ region ∈ mapped events, Region.Disjoint ⟨base, physicalSize⟩ region) :
    Owned debug (.mapping physicalSize base :: events) { owners with live := block :: owners.live } := by
  have now : mapped (.mapping physicalSize base :: events) = ⟨base, physicalSize⟩ :: mapped events := if_neg paged.nonzero
  have more : ∀ region ∈ mapped events, region ∈ mapped (.mapping physicalSize base :: events) := by
    rw [now]
    exact fun region => List.mem_cons_of_mem _
  have back : block.pointer - payloadOffset = base := by rw [pointer, Nat.add_sub_cancel]
  have storage : block.storage debug = ⟨base, physicalSize⟩ := by
    simp only [Block.storage, classified, mapping, layout, back]
  have used : Owners.used debug { owners with live := block :: owners.live } = ⟨base, physicalSize⟩ :: owners.used debug := by
    simp only [Owners.used, List.map_cons, storage, List.cons_append]
  refine ⟨?_, fun cell member => ?_, ?_, fun arena held => more _ (owned.arenas arena held), owned.offset, ?_, owned.freed,
    owned.carvings, fun place member => ?_, owned.once, owned.orderly⟩
  · refine perm_apart ?_ (List.pairwise_cons.mpr ⟨owned.fresh unused, owned.apart⟩)
    rw [Owners.cells, Owners.cells, used]
    exact List.perm_middle.symm
  · rw [used] at member
    rw [now]
    cases member with
    | head => exact ⟨_, List.mem_cons_self, Nat.le_refl _, Nat.le_refl _⟩
    | tail _ old =>
      obtain ⟨region, held, within⟩ := owned.inside cell old
      exact ⟨region, List.mem_cons_of_mem _ held, within⟩
  · rw [now]
    exact List.forall_mem_cons.mpr ⟨paged, owned.pages⟩
  · refine List.forall_mem_cons.mpr ⟨.direct classified layout ?_ (by omega), fun other held => (owned.placed other held).mono (fun _ => id) more⟩
    rw [back, now]
    exact List.mem_cons_self
  · rcases owned.retained place member with free | ⟨holder, held, at'⟩
    · exact Or.inl free
    · exact Or.inr ⟨holder, List.mem_cons_of_mem _ held, at'⟩

private theorem used_positive (owned : Owned debug events owners) : ∀ cell ∈ owners.used debug, 0 < cell.size := by
  have constants := sizes
  have slots : ∀ place, 0 < (slot debug place).size := fun place => Nat.add_pos_right _ (Nat.two_pow_pos _)
  intro cell member
  simp only [Owners.used, List.mem_append, List.mem_map] at member
  rcases member with ⟨block, held, rfl⟩ | ⟨place, _, rfl⟩ | ⟨arena, _, rfl⟩
  · cases owned.placed block held with
    | small classified =>
      simp only [Block.storage, classified]
      exact slots _
    | direct classified layout =>
      have valid := classify_valid classified
      obtain ⟨pages, enough, _⟩ := classify_direct classified
      have fits := (directLayout_spec valid.power pages layout).2.2.1
      have positive := valid.positive
      simp only [Block.storage, classified, mapping, layout]
      omega
  · exact slots place
  · simp only [arenaHeader]
    omega

theorem Owned.unmap {mappingSize payloadOffset physicalSize : Nat}
    (owned : Owned debug events { owners with live := block :: live })
    (classified : classify block.size block.align = some (.direct mappingSize))
    (layout : directLayout debug mappingSize block.align = some (payloadOffset, physicalSize)) :
    Owned debug (.unmapping (block.pointer - payloadOffset) physicalSize :: events) { owners with live } := by
  have constants := sizes
  have storage : block.storage debug = ⟨block.pointer - payloadOffset, physicalSize⟩ := by
    simp only [Block.storage, classified, mapping, layout]
  have here : ⟨block.pointer - payloadOffset, physicalSize⟩ ∈ mapped events := by
    cases owned.placed block List.mem_cons_self with
    | small other =>
      rw [classified] at other
      cases other
    | direct other layout' placed =>
      rw [classified] at other
      cases other
      rw [layout] at layout'
      cases layout'
      exact placed
  have used : Owners.used debug { owners with live := block :: live } = block.storage debug :: Owners.used debug { owners with live } := by
    simp only [Owners.used, List.map_cons, List.cons_append]
  have stays : ∀ cell ∈ Owners.used debug { owners with live }, ∀ region ∈ mapped events, cell.Within region →
      region ∈ mapped (.unmapping (block.pointer - payloadOffset) physicalSize :: events) := by
    intro cell member region held within
    refine (List.mem_erase_of_ne ?_).mpr held
    rintro rfl
    have apart := (List.pairwise_append.mp owned.apart).2.1
    rw [used, storage] at apart
    have separate := (List.pairwise_cons.mp apart).1 cell member
    have positive := used_positive owned cell (by rw [used]; exact List.mem_cons_of_mem _ member)
    simp only [Region.Within, Region.Disjoint] at within separate
    omega
  refine ⟨?_, ?_, ?_, ?_, owned.offset, ?_, owned.freed, owned.carvings, ?_, owned.once, here, owned.orderly⟩
  · refine owned.apart.sublist (List.Sublist.append_left ?_ _)
    rw [used]
    exact List.sublist_cons_self _ _
  · intro cell member
    obtain ⟨region, held, within⟩ := owned.inside cell (by rw [used]; exact List.mem_cons_of_mem _ member)
    exact ⟨region, stays cell member region held within, within⟩
  · exact fun region member => owned.pages region (List.mem_of_mem_erase member)
  · intro arena held
    have member : arenaHeader arena ∈ Owners.used debug { owners with live } :=
      List.mem_append_right _ (List.mem_append_right _ (List.mem_map_of_mem held))
    refine stays _ member _ (owned.arenas arena held) ?_
    simp only [Region.Within, arenaHeader]
    omega
  · intro other held
    have good := owned.placed other (List.mem_cons_of_mem _ held)
    cases good with
    | small classified' placed => exact .small classified' placed
    | direct classified' layout' placed behind =>
      refine .direct classified' layout' (stays (other.storage debug) ?_ _ placed ?_) behind
      · exact List.mem_append_left _ (List.mem_map_of_mem held)
      · simp only [Block.storage, classified', mapping, layout']
        exact ⟨Nat.le_refl _, Nat.le_refl _⟩
  · intro place member
    rcases owned.retained place member with free | ⟨holder, held, at'⟩
    · exact Or.inl free
    · cases held with
      | head =>
        simp only [Block.place, classified] at at'
        cases at'
      | tail _ still => exact Or.inr ⟨holder, still, at'⟩

theorem Owned.carve {arena index newOffset : Nat} {older : List Nat} (owned : Owned debug events owners)
    (current : owners.arenas = arena :: older) (placed : block.place = some (block.pointer, index)) (small : index < classCount)
    (behind : arena + owners.offset + headerSize debug ≤ block.pointer) (aligned : classAlign index ∣ block.pointer)
    (bump : block.pointer + classSize index = arena + newOffset) (room : newOffset ≤ arenaSize)
    (good : block.Placed debug (.carving block.pointer index :: events)) :
    Owned debug (.carving block.pointer index :: events)
      { owners with live := block :: owners.live, offset := newOffset } := by
  have constants := sizes
  have size := (classSize_bounds small).1
  have start := owned.offset
  have nonzero := (owned.pages _ (owned.arenas arena (by rw [current]; exact List.mem_cons_self))).nonzero
  dsimp only at nonzero
  have rest : owners.tail = [⟨arena + owners.offset, arenaSize - owners.offset⟩] := by
    rw [Owners.tail, current]
    rfl
  have rest' : Owners.tail { owners with live := block :: owners.live, offset := newOffset } =
      [⟨arena + newOffset, arenaSize - newOffset⟩] := by
    rw [Owners.tail, current]
    rfl
  have inner : Region.Within (slot debug (block.pointer, index)) ⟨arena + owners.offset, arenaSize - owners.offset⟩ := by
    simp only [Region.Within, slot]
    omega
  have left : Region.Within ⟨arena + newOffset, arenaSize - newOffset⟩ ⟨arena + owners.offset, arenaSize - owners.offset⟩ := by
    simp only [Region.Within]
    omega
  have used : Owners.used debug { owners with live := block :: owners.live, offset := newOffset } =
      slot debug (block.pointer, index) :: owners.used debug := by
    simp only [Owners.used, List.map_cons, storage_of_place placed, List.cons_append]
  have apart := owned.apart
  rw [Owners.cells, rest] at apart
  obtain ⟨away, apart⟩ := List.pairwise_cons.mp apart
  refine ⟨?_, ?_, owned.pages, owned.arenas, ⟨by dsimp only; omega, room⟩, ?_, ?_, ?_, ?_, ?_, owned.orderly⟩
  · rw [Owners.cells, rest', used]
    refine List.pairwise_cons.mpr ⟨?_, List.pairwise_cons.mpr ⟨fun cell member => (away cell member).of_within inner, apart⟩⟩
    intro cell member
    cases member with
    | head =>
      refine Or.inr ?_
      simp only [slot]
      omega
    | tail _ old => exact (away cell old).of_within left
  · rw [used]
    intro cell member
    cases member with
    | head =>
      refine ⟨_, owned.arenas arena (by rw [current]; exact List.mem_cons_self), ?_⟩
      simp only [Region.Within, slot]
      omega
    | tail _ old => exact owned.inside cell old
  · exact List.forall_mem_cons.mpr ⟨good, fun other held => (owned.placed other held).mono (fun _ => List.mem_cons_of_mem _) fun _ => id⟩
  · exact fun place member => List.mem_cons_of_mem _ (owned.freed place member)
  · exact List.forall_mem_cons.mpr ⟨⟨small, aligned, by dsimp only; omega⟩, owned.carvings⟩
  · refine List.forall_mem_cons.mpr ⟨Or.inr ⟨block, List.mem_cons_self, placed⟩, fun place member => ?_⟩
    rcases owned.retained place member with free | ⟨holder, held, at'⟩
    · exact Or.inl free
    · exact Or.inr ⟨holder, List.mem_cons_of_mem _ held, at'⟩
  · refine List.pairwise_cons.mpr ⟨fun place member same => ?_, owned.once⟩
    have cell : slot debug place ∈ owners.used debug := by
      rcases owned.retained place member with free | ⟨holder, held, at'⟩
      · exact List.mem_append_right _ (List.mem_append_left _ (List.mem_map_of_mem free))
      · rw [← storage_of_place at']
        exact List.mem_append_left _ (List.mem_map_of_mem held)
    have positive := used_positive owned _ cell
    have separate := (away _ cell).of_within inner
    simp only [Region.Disjoint, slot] at separate same positive
    omega

end Moves

end Rue.Proofs.Allocator
