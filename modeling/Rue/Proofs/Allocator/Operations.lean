import Rue.Proofs.Allocator.Stored

/-! What each operation of the allocator does to the layout. -/

namespace Rue.Proofs.Allocator
open Rue.Runtime.Allocator Rue.Lib.Memory

/-- Memory says who owns what, and everything is apart. -/
structure Layout (debug : Bool) (heap : Heap) (owners : Owners) : Prop where
  owned : Owned debug heap.events owners
  stored : Stored debug heap owners

/-- The live blocks behind an allocation. -/
def issue (block : Block) (live : List Block) : List Block := if block.pointer = 0 then live else block :: live

/-- The allocation ends, with null or with a new live block. -/
def Allocates (debug : Bool) (live : List Block) (size align : Nat) (result : Option (Nat × Heap)) : Prop :=
  ∃ pointer heap owners, result = some (pointer, heap) ∧ Layout debug heap owners ∧ owners.live = issue ⟨pointer, size, align⟩ live

section Headers
variable {debug : Bool} {heap : Heap} {events : List Event} {owners : Owners} {block : Block}

theorem Owned.header_encodable (owned : Owned debug events owners) (held : block ∈ owners.live) : Encodable (block.header debug) := by
  have constants := sizes
  have aligned : ∀ {align : Nat}, (∃ shift ≤ 12, align = 2 ^ shift) → align ≤ usizeMax := by
    rintro _ ⟨shift, low, rfl⟩
    have bounded : 2 ^ shift ≤ 2 ^ 12 := Nat.pow_le_pow_right Nat.two_pos low
    omega
  unfold Block.header
  cases owned.placed block held with
  | small classified =>
    have valid := classify_valid classified
    have index := (classify_small classified).index
    rw [classified]
    exact ⟨(by decide : debugHeaderMagic ≤ usizeMax), valid.bounded, aligned valid.power, Nat.zero_le _, Nat.zero_le _, by dsimp only; omega⟩
  | direct classified layout placed =>
    have valid := classify_valid classified
    have fits := (owned.pages _ placed).fits
    simp only [classified, mapping, layout]
    exact ⟨(by decide : debugHeaderMagic ≤ usizeMax), valid.bounded, aligned valid.power, by dsimp only at fits ⊢; omega,
      by dsimp only at fits ⊢; omega, (by decide : directKind ≤ usizeMax)⟩

theorem header_small {pointer size align : Nat} {smallClass : SmallClass} (classified : classify size align = some (.small smallClass)) :
    Block.header debug ⟨pointer, size, align⟩ = ⟨debugHeaderMagic, size, align, 0, 0, smallClass.index⟩ := by
  simp only [Block.header, classified]

theorem header_direct {base size align mappingSize payloadOffset physicalSize : Nat}
    (classified : classify size align = some (.direct mappingSize))
    (found : directLayout debug mappingSize align = some (payloadOffset, physicalSize)) :
    Block.header debug ⟨base + payloadOffset, size, align⟩ = ⟨debugHeaderMagic, size, align, base, physicalSize, directKind⟩ := by
  simp only [Block.header, classified, mapping, found, Nat.add_sub_cancel]

theorem Stored.log (stored : Stored debug heap owners) (event : Event) : Stored debug (heap.log event) owners :=
  stored.frame rfl rfl fun _ _ _ _ => rfl

theorem Stored.issue {live : List Block} (owned : Owned debug events owners) (newest : owners.live = block :: live)
    (stored : Stored debug heap { owners with live }) :
    Stored debug (if debug then writeAllocationHeader heap block.pointer (block.header debug) else heap) owners := by
  have held : block ∈ owners.live := by
    rw [newest]
    exact List.mem_cons_self
  split
  next debugging =>
    have inside := (owned.header_within held debugging).1
    have kept : Stored debug (writeAllocationHeader heap block.pointer (block.header debug)) { owners with live } := by
      refine stored.frame rfl rfl fun region member address holds => ?_
      apply writeAllocationHeader_outside
      exact fun written => (owned.apart_from_rest newest inside region member).not_holds written holds
    refine { kept with headers := fun _ other listed => ?_ }
    rw [newest] at listed
    cases listed with
    | head => exact readAllocationHeader_write (owned.header_encodable held) block.pointer
    | tail _ still => exact kept.headers debugging other still
  next plain => exact { stored with headers := fun debugging => absurd debugging plain }

end Headers

section Free
variable {debug : Bool} {heap : Heap} {owners : Owners} {block : Block}

theorem listOf_split {free : List (Nat × Nat)} {index head : Nat} {rest : List Nat} (same : listOf free index = head :: rest) :
    ∃ before after, free = before ++ (head, index) :: after ∧ listOf (before ++ after) index = rest ∧
      ∀ other, other ≠ index → listOf (before ++ after) other = listOf free other := by
  obtain ⟨⟨_, _⟩, places, filtered, rfl, rfl⟩ := List.map_eq_cons_iff.mp same
  obtain ⟨before, after, rfl, earlier, chosen, rfl⟩ := List.filter_eq_cons_iff.mp filtered
  cases of_decide_eq_true chosen
  refine ⟨before, after, rfl, ?_, fun other differs => ?_⟩
  · unfold listOf
    rw [List.filter_append, List.filter_eq_nil_iff.mpr earlier, List.nil_append]
  · unfold listOf
    rw [List.filter_append, List.filter_append, List.filter_cons_of_neg (by simpa using Ne.symm differs)]

theorem listOf_cons_self (free : List (Nat × Nat)) (head index : Nat) : listOf ((head, index) :: free) index = head :: listOf free index := by
  unfold listOf
  rw [List.filter_cons_of_pos (by simp), List.map_cons]

theorem listOf_cons_ne {index other : Nat} (free : List (Nat × Nat)) (head : Nat) (differs : other ≠ index) :
    listOf ((head, index) :: free) other = listOf free other := by
  unfold listOf
  rw [List.filter_cons_of_neg (by simpa using Ne.symm differs)]

theorem Owned.bounded (owned : Owned debug heap.events owners) : ∀ cell ∈ owners.used debug, cell.base + cell.size ≤ usizeMax := by
  intro cell member
  obtain ⟨region, held, within⟩ := owned.inside cell member
  exact Nat.le_trans within.2 (owned.pages region held).fits

theorem Layout.head_bounded (layout : Layout debug heap owners) {index : Nat} (small : index < classCount) :
    heap.freeLists index ≤ usizeMax := by
  rcases (layout.stored.lists index small).cases with ⟨null, _⟩ | ⟨_, rest, same, _⟩
  · rw [null]
    exact Nat.zero_le _
  · obtain ⟨before, after, split, _⟩ := listOf_split same
    have free : (heap.freeLists index, index) ∈ owners.free := by
      rw [split]
      exact List.mem_append_right _ List.mem_cons_self
    have bounded := layout.owned.bounded _ (List.mem_append_right _ (List.mem_append_left _ (List.mem_map_of_mem free)))
    simp only [slot] at bounded
    omega

/-- A live small block goes back to the list of its class. -/
theorem releaseSmall_layout {live : List Block} {index : Nat} (layout : Layout debug heap { owners with live := block :: live })
    (placed : block.place = some (block.pointer, index)) :
    ∃ heap', releaseSmall heap block.pointer index = some heap' ∧
      Layout debug heap' { owners with live, free := (block.pointer, index) :: owners.free } := by
  have owned := layout.owned.give placed
  have here := (layout.owned.placed block List.mem_cons_self).carved placed
  obtain ⟨small, _, behind⟩ := layout.owned.carvings _ here
  have inside : (link (block.pointer, index)).Within (block.storage debug) := by
    rw [storage_of_place placed]
    exact layout.owned.link_within here
  have dropped : Stored debug heap { owners with live } :=
    { layout.stored with headers := fun debugging other held => layout.stored.headers debugging other (List.mem_cons_of_mem _ held) }
  have kept : Stored debug (heap.write block.pointer (heap.freeLists index)) { owners with live } := by
    refine dropped.frame rfl rfl fun region member address holds => ?_
    apply write_outside (link (block.pointer, index)) ⟨Nat.le_refl _, Nat.le_refl _⟩
    exact fun written => (layout.owned.apart_from_rest rfl inside region member).not_holds written holds
  unfold releaseSmall
  rw [if_pos small]
  refine ⟨_, rfl, owned, { kept with lists := fun other small' => ?_ }⟩
  by_cases same : other = index
  · subst same
    dsimp only
    rw [Function.update_self, listOf_cons_self]
    refine ⟨rfl, by dsimp only at behind; omega, ?_⟩
    change Chain _ ((heap.write block.pointer (heap.freeLists other)).read block.pointer) _
    rw [read_write_self (layout.head_bounded small)]
    exact kept.lists other small
  · dsimp only
    rw [Function.update_of_ne same, listOf_cons_ne _ _ same]
    exact kept.lists other small'

theorem takeFree_layout {smallClass : SmallClass} (layout : Layout debug heap owners)
    (classified : classify block.size block.align = some (.small smallClass)) (nonzero : heap.freeLists smallClass.index ≠ 0)
    (pointer : block.pointer = heap.freeLists smallClass.index) :
    ∃ free, Layout debug
      (if debug then
        writeAllocationHeader
          { heap with freeLists := Function.update heap.freeLists smallClass.index (heap.read (heap.freeLists smallClass.index)) }
          block.pointer (block.header debug)
      else { heap with freeLists := Function.update heap.freeLists smallClass.index (heap.read (heap.freeLists smallClass.index)) })
      { owners with live := block :: owners.live, free } := by
  have small := (classify_small classified).index
  rcases (layout.stored.lists _ small).cases with ⟨null, _⟩ | ⟨_, rest, same, chain⟩
  · exact absurd null nonzero
  · obtain ⟨before, after, split, remaining, others⟩ := listOf_split same
    have placed : block.place = some (heap.freeLists smallClass.index, smallClass.index) := by
      simp only [Block.place, classified, pointer]
    have free : (heap.freeLists smallClass.index, smallClass.index) ∈ owners.free := by
      rw [split]
      exact List.mem_append_right _ List.mem_cons_self
    have owned : Owned debug heap.events { owners with live := block :: owners.live, free := before ++ after } := by
      refine Owned.take ?_ placed (.small classified ?_)
      · rw [← split]
        exact layout.owned
      · rw [pointer]
        exact layout.owned.freed _ free
    refine ⟨before ++ after, ?_, ?_⟩
    · cases debug <;> exact owned
    · refine Stored.issue owned rfl { layout.stored with lists := fun other small' => ?_ }
      by_cases here : other = smallClass.index
      · subst here
        dsimp only
        rw [Function.update_self, remaining]
        exact chain
      · dsimp only
        rw [Function.update_of_ne here, others other here]
        exact layout.stored.lists other small'

end Free

section Arenas
variable {debug : Bool} {heap : Heap} {events : List Event} {owners : Owners}

/-- The current arena's header is apart from the allocator's other data. -/
private theorem header_apart {arena : Nat} {older : List Nat} (owned : Owned debug events owners) (current : owners.arenas = arena :: older) :
    ∀ region ∈ Owners.privates debug { owners with arenas := older }, (arenaHeader arena).Disjoint region := by
  intro region member
  have used : (owners.used debug).Perm (arenaHeader arena :: Owners.used debug { owners with arenas := older }) := by
    simp only [Owners.used, current, List.map_cons]
    rw [← List.append_assoc, ← List.append_assoc]
    exact List.perm_middle
  have apart := used.pairwise (List.pairwise_append.mp owned.apart).2.1 Region.Disjoint.symm
  obtain ⟨cell, held, within⟩ := owned.privates_within { owners with arenas := older } (fun _ => id) (fun _ => id) region member
  exact (((List.pairwise_cons.mp apart).1 cell held).symm.of_within within).symm

theorem Stored.bump {arena newOffset : Nat} {older : List Nat} (stored : Stored debug heap owners) (owned : Owned debug events owners)
    (current : owners.arenas = arena :: older) (fits : newOffset ≤ usizeMax) :
    Stored debug (heap.write (arena + 16) newOffset) { owners with offset := newOffset } := by
  have constants := Allocator.sizes
  have apart := header_apart owned current
  have words : ∀ region ∈ Owners.privates debug { owners with arenas := older }, ∀ address, (Region.mk address 8).Within region →
      (heap.write (arena + 16) newOffset).read address = heap.read address := by
    intro region member address inside
    have separate := apart region member
    refine read_write_of_disjoint ?_
    simp only [Region.Disjoint, Region.Within, arenaHeader] at separate inside ⊢
    omega
  have nodes : ∀ node ∈ owners.arenas, ∀ address, (Region.mk address 8).Within ⟨node, 16⟩ →
      (heap.write (arena + 16) newOffset).read address = heap.read address := by
    rw [current]
    intro node held address inside
    simp only [Region.Within] at inside
    cases held with
    | head =>
      refine read_write_of_disjoint ?_
      simp only [Region.Disjoint]
      omega
    | tail _ old =>
      refine words (arenaHeader node) (List.mem_append_right _ (List.mem_append_right _ (List.mem_map_of_mem old))) address ?_
      simp only [Region.Within, arenaHeader]
      omega
  refine ⟨?_, ?_, ?_, ?_, ?_⟩
  · refine stored.arenas.frame fun node held => nodes node held node ?_
    simp only [Region.Within]
    omega
  · intro node held
    rw [nodes node held _ (by simp only [Region.Within]; omega)]
    exact stored.sizes node held
  · rw [current]
    intro node same
    cases same
    exact read_write_self fits
  · intro index small
    refine (stored.lists index small).frame fun node held => ?_
    obtain ⟨place, member, rfl⟩ := List.mem_map.mp held
    have free := List.mem_of_mem_filter member
    refine words (link place) ?_ _ ⟨Nat.le_refl _, Nat.le_refl _⟩
    exact List.mem_append_right _ (List.mem_append_left _ (List.mem_map_of_mem free))
  · intro debugging block held
    rw [← stored.headers debugging block held]
    refine readAllocationHeader_congr fun address => words _ (List.mem_append_left _ ?_) address
    rw [if_pos debugging]
    exact List.mem_map_of_mem held

theorem Stored.expand {base : Nat} (stored : Stored debug heap owners) (owned : Owned debug events owners) (paged : Paged ⟨base, arenaSize⟩)
    (unused : ∀ region ∈ mapped events, Region.Disjoint ⟨base, arenaSize⟩ region) :
    Stored debug
      { ((heap.write base heap.currentArena).write (base + 8) arenaSize).write (base + 16) arenaHeaderSize with currentArena := base }
      { owners with arenas := base :: owners.arenas, offset := arenaHeaderSize } := by
  have constants := Allocator.sizes
  have bounded : heap.currentArena ≤ usizeMax := by
    rcases stored.arenas.cases with ⟨null, _⟩ | ⟨_, older, same, _⟩
    · omega
    · have fits := (owned.pages _ (owned.arenas heap.currentArena (by rw [same]; exact List.mem_cons_self))).fits
      dsimp only at fits
      omega
  have kept : Stored debug (((heap.write base heap.currentArena).write (base + 8) arenaSize).write (base + 16) arenaHeaderSize) owners := by
    refine stored.frame rfl rfl fun region member address holds => ?_
    obtain ⟨cell, used, within⟩ := owned.privates_within owners (fun _ => id) (fun _ => id) region member
    have outside := (owned.fresh unused cell (List.mem_append_right _ used)).symm.not_holds (within.holds holds)
    simp (disch := simp only [Region.Within]; omega) only [write_outside ⟨base, arenaSize⟩ _ outside]
  refine ⟨⟨rfl, paged.nonzero, ?_⟩, ?_, ?_, kept.lists, kept.headers⟩
  · have link : (((heap.write base heap.currentArena).write (base + 8) arenaSize).write (base + 16) arenaHeaderSize).read base =
        heap.currentArena := by
      rw [read_write_of_disjoint (Or.inr (by dsimp only; omega)), read_write_of_disjoint (Or.inr (by dsimp only; omega)),
        read_write_self bounded]
    change Chain _ (Heap.read (((heap.write base heap.currentArena).write (base + 8) arenaSize).write (base + 16) arenaHeaderSize) base) _
    rw [link]
    exact kept.arenas
  · refine List.forall_mem_cons.mpr ⟨?_, kept.sizes⟩
    change Heap.read (((heap.write base heap.currentArena).write (base + 8) arenaSize).write (base + 16) arenaHeaderSize) (base + 8) = _
    rw [read_write_of_disjoint (Or.inr (by dsimp only; omega)), read_write_self (by omega)]
  · intro arena same
    cases same
    change Heap.read (((heap.write base heap.currentArena).write (base + 8) arenaSize).write (base + 16) arenaHeaderSize) (base + 16) = _
    exact read_write_self (by omega)

end Arenas

section Small
variable {debug : Bool} {mapper : PageMapper} {heap : Heap} {owners : Owners} {smallClass : SmallClass} {size align : Nat}

theorem reserveHeader_eq {offset start : Nat} (found : reserveHeader debug offset = some start) :
    start = offset + headerSize debug := by
  unfold reserveHeader at found
  unfold headerSize
  cases debug with
  | false =>
    cases found
    rfl
  | true => exact (checkedAdd_eq_some found).1

/-- Where the arena has room, the block is cut from it. -/
theorem allocateFromArena_layout {arena pointer : Nat} {heap' : Heap} {older : List Nat} (layout : Layout debug heap owners)
    (current : owners.arenas = arena :: older) (classified : classify size align = some (.small smallClass))
    (found : allocateFromArena debug heap arena smallClass size align = some (pointer, heap')) :
    Allocates debug owners.live size align (some (pointer, heap')) := by
  have constants := sizes
  have fits := classify_small classified
  have head : arena ∈ owners.arenas := by
    rw [current]
    exact List.mem_cons_self
  have offset := layout.stored.offset arena (by rw [current]; rfl)
  have region := layout.owned.pages _ (layout.owned.arenas arena head)
  unfold allocateFromArena at found
  rw [offset, layout.stored.sizes arena head] at found
  obtain ⟨start, starts, found⟩ := Option.bind_eq_some_iff.mp found
  obtain ⟨pointerOffset, aligns, found⟩ := Option.bind_eq_some_iff.mp found
  obtain ⟨newOffset, ends, found⟩ := Option.bind_eq_some_iff.mp found
  have began := reserveHeader_eq starts
  obtain ⟨rfl, bounded⟩ := checkedAdd_eq_some ends
  rw [fits.blockAlign, classAlign_pow] at aligns
  obtain ⟨divides, covers, _, _⟩ := checkedAlignUp_spec (by omega) aligns
  rw [← classAlign_pow] at divides
  split at found
  next => cases found
  next room =>
    cases found
    have placed : Block.place ⟨arena + pointerOffset, size, align⟩ = some (arena + pointerOffset, smallClass.index) := by
      simp only [Block.place, classified]
    have pageAligned : classAlign smallClass.index ∣ pageSize := by
      rw [classAlign_pow]
      exact Nat.pow_dvd_pow 2 (Nat.min_le_right _ _ : min _ 12 ≤ 12)
    have owned : Owned debug (.carving (arena + pointerOffset) smallClass.index :: heap.events)
        { owners with live := ⟨arena + pointerOffset, size, align⟩ :: owners.live, offset := pointerOffset + smallClass.blockSize } := by
      refine layout.owned.carve current placed fits.index (by dsimp only; omega) ?_ ?_ (by omega) (.small classified List.mem_cons_self)
      · exact Nat.dvd_add (Nat.dvd_trans pageAligned region.aligned) divides
      · dsimp only
        rw [← fits.blockSize]
        omega
    refine ⟨_, _, { owners with live := ⟨arena + pointerOffset, size, align⟩ :: owners.live, offset := pointerOffset + smallClass.blockSize }, rfl, ⟨?_, ?_⟩, ?_⟩
    · cases debug <;> exact owned
    · have bumped := (layout.stored.bump layout.owned current bounded).log (.carving (arena + pointerOffset) smallClass.index)
      have issued := Stored.issue owned rfl bumped
      rwa [header_small classified] at issued
    · have nonzero := region.nonzero
      exact (if_neg (by dsimp only at nonzero ⊢; omega)).symm

theorem allocateFromArena_fits {arena : Nat} (classified : classify size align = some (.small smallClass))
    (offset : heap.read (arena + 16) = arenaHeaderSize) (whole : heap.read (arena + 8) = arenaSize) :
    ∃ done, allocateFromArena debug heap arena smallClass size align = some done := by
  have constants := sizes
  have fits := classify_small classified
  have bounds := classSize_bounds fits.index
  have low : classAlign smallClass.index ≤ pageSize := Nat.min_le_right _ _
  have reserved : ∃ start ≤ 72, reserveHeader debug arenaHeaderSize = some start := by
    cases debug
    · exact ⟨24, by decide, rfl⟩
    · exact ⟨72, by decide, rfl⟩
  obtain ⟨start, small, starts⟩ := reserved
  obtain ⟨pointerOffset, aligns⟩ := checkedAlignUp_isSome start smallClass.blockAlign (by rw [fits.blockAlign]; omega)
  have near := aligns
  rw [fits.blockAlign, classAlign_pow] at near
  have spec := checkedAlignUp_spec (by omega) near
  rw [← classAlign_pow] at spec
  have ends : checkedAdd pointerOffset smallClass.blockSize = some (pointerOffset + smallClass.blockSize) :=
    if_pos (by rw [fits.blockSize]; omega)
  have room : ¬ pointerOffset + smallClass.blockSize > arenaSize := by
    rw [fits.blockSize]
    omega
  unfold allocateFromArena
  simp only [offset, whole, starts, aligns, ends, Option.bind_eq_bind, Option.bind_some, if_neg room]
  exact ⟨_, rfl⟩

theorem Layout.refuse (layout : Layout debug heap owners) {event : Event} (maps : mapped (event :: heap.events) = mapped heap.events)
    (carves : carved (event :: heap.events) = carved heap.events) (orderly : Orderly (event :: heap.events)) :
    Layout debug (heap.log event) owners := ⟨layout.owned.ask maps carves orderly, layout.stored.log event⟩

theorem Layout.refuseMapping (layout : Layout debug heap owners) (size : Nat) : Layout debug (heap.log (.mapping size 0)) owners := by
  have same : mapped (.mapping size 0 :: heap.events) = mapped heap.events := if_pos rfl
  exact layout.refuse same rfl layout.owned.orderly

theorem Layout.refused (layout : Layout debug heap owners) (size align : Nat) : Allocates debug owners.live size align (some (0, heap)) :=
  ⟨0, heap, owners, rfl, layout, (if_pos rfl).symm⟩

theorem Layout.expand {base : Nat} (layout : Layout debug heap owners) (paged : Paged ⟨base, arenaSize⟩)
    (unused : ∀ region ∈ mapped heap.events, Region.Disjoint ⟨base, arenaSize⟩ region) :
    Layout debug
      { (((heap.log (.mapping arenaSize base)).write base heap.currentArena).write (base + 8) arenaSize).write (base + 16)
          arenaHeaderSize with currentArena := base }
      { owners with arenas := base :: owners.arenas, offset := arenaHeaderSize } :=
  ⟨layout.owned.expand paged unused, (layout.stored.log _).expand layout.owned paged unused⟩

private theorem allocateFromArenas_expand {base fuel : Nat} (lawful : Lawful mapper) (layout : Layout debug heap owners)
    (classified : classify size align = some (.small smallClass)) (answer : mapper.map heap.events arenaSize = base) (nonzero : base ≠ 0) :
    Allocates debug owners.live size align
      (allocateFromArenas debug mapper smallClass size align (fuel + 1)
        { (((heap.log (.mapping arenaSize base)).write base heap.currentArena).write (base + 8) arenaSize).write (base + 16) arenaHeaderSize
          with currentArena := base }) := by
  subst answer
  obtain ⟨paged, unused⟩ := lawful heap.events arenaSize (by decide) (by decide) nonzero
  have expanded := layout.expand paged unused
  obtain ⟨⟨pointer, final⟩, found⟩ := allocateFromArena_fits classified (expanded.stored.offset _ rfl)
    (expanded.stored.sizes _ List.mem_cons_self)
  unfold allocateFromArenas
  rw [if_pos nonzero, found]
  have allocated := allocateFromArena_layout expanded rfl classified found
  exact allocated

theorem allocateFromArenas_layout (lawful : Lawful mapper) (layout : Layout debug heap owners)
    (classified : classify size align = some (.small smallClass)) (fuel : Nat) :
    Allocates debug owners.live size align (allocateFromArenas debug mapper smallClass size align (fuel + 2) heap) := by
  have round : ∀ attempt, (if heap.currentArena ≠ 0 then allocateFromArena debug heap heap.currentArena smallClass size align else none) =
      some attempt → Allocates debug owners.live size align (some attempt) := by
    intro attempt found
    rcases layout.stored.arenas.cases with ⟨null, _⟩ | ⟨nonzero, older, current, _⟩
    · rw [if_neg (not_not.mpr null)] at found
      cases found
    · rw [if_pos nonzero] at found
      exact allocateFromArena_layout layout current classified found
  unfold allocateFromArenas
  split
  next done found => exact round done found
  next =>
    dsimp only
    split
    next null =>
      rw [null]
      exact (layout.refuseMapping arenaSize).refused size align
    next nonzero => exact allocateFromArenas_expand lawful layout classified rfl nonzero

theorem allocateSmall_layout (lawful : Lawful mapper) (layout : Layout debug heap owners)
    (classified : classify size align = some (.small smallClass)) :
    Allocates debug owners.live size align (allocateSmall debug mapper smallClass size align heap) := by
  unfold allocateSmall
  rw [if_pos (classify_small classified).index]
  dsimp only
  split
  next nonzero =>
    let block : Block := ⟨heap.freeLists smallClass.index, size, align⟩
    obtain ⟨free, taken⟩ : ∃ free, Layout debug _ { owners with live := block :: owners.live, free } :=
      takeFree_layout layout classified nonzero rfl
    rw [header_small classified] at taken
    exact ⟨_, _, _, rfl, taken, (if_neg nonzero).symm⟩
  next => exact allocateFromArenas_layout lawful layout classified 0

end Small

section Calls
variable {debug : Bool} {mapper : PageMapper} {heap : Heap} {owners : Owners} {size align : Nat}

theorem Layout.map {mappingSize payloadOffset physicalSize base : Nat} (layout : Layout debug heap owners)
    (classified : classify size align = some (.direct mappingSize))
    (found : directLayout debug mappingSize align = some (payloadOffset, physicalSize)) (paged : Paged ⟨base, physicalSize⟩)
    (unused : ∀ region ∈ mapped heap.events, Region.Disjoint ⟨base, physicalSize⟩ region) :
    Layout debug
      (if debug then
        writeAllocationHeader (heap.log (.mapping physicalSize base)) (base + payloadOffset)
          ⟨debugHeaderMagic, size, align, base, physicalSize, directKind⟩
      else heap.log (.mapping physicalSize base))
      { owners with live := ⟨base + payloadOffset, size, align⟩ :: owners.live } := by
  let block : Block := ⟨base + payloadOffset, size, align⟩
  have owned : Owned debug (.mapping physicalSize base :: heap.events) { owners with live := block :: owners.live } :=
    layout.owned.map classified found rfl paged unused
  refine ⟨?_, ?_⟩
  · cases debug <;> exact owned
  · have issued := Stored.issue owned rfl (layout.stored.log (.mapping physicalSize base))
    rwa [header_direct classified found] at issued

theorem allocate_layout (lawful : Lawful mapper) (layout : Layout debug heap owners) (size align : Nat) :
    Allocates debug owners.live size align (allocate debug mapper size align heap) := by
  have asked : Layout debug (heap.log (.permission (mapper.allocationPermitted heap.events))) owners :=
    layout.refuse rfl rfl layout.owned.orderly
  unfold allocate
  dsimp only
  split
  next => exact asked.refused size align
  next =>
    split
    next => exact asked.refused size align
    next smallClass classified => exact allocateSmall_layout lawful asked classified
    next mappingSize classified =>
      split
      next => exact asked.refused size align
      next payloadOffset physicalSize found =>
        split
        next null =>
          rw [null]
          exact (asked.refuseMapping physicalSize).refused size align
        next nonzero =>
          have valid := classify_valid classified
          obtain ⟨pages, enough, _⟩ := classify_direct classified
          obtain ⟨_, _, fits, whole⟩ := directLayout_spec valid.power pages found
          have positive := valid.positive
          obtain ⟨paged, unused⟩ := lawful _ physicalSize (by omega) whole nonzero
          exact ⟨_, _, _, rfl, asked.map classified found paged unused, (if_neg (by dsimp only; omega)).symm⟩

theorem Stored.drop {block : Block} {live : List Block} (stored : Stored debug heap owners) (newest : owners.live = block :: live) :
    Stored debug heap { owners with live } :=
  { stored with headers := fun debugging other held => stored.headers debugging other (by rw [newest]; exact List.mem_cons_of_mem _ held) }

theorem Owned.pointer_nonzero {events : List Event} {block : Block} (owned : Owned debug events owners) (held : block ∈ owners.live) :
    block.pointer ≠ 0 := by
  cases owned.placed block held with
  | small _ placed =>
    have behind := (owned.carvings _ placed).2.2
    dsimp only at behind
    omega
  | direct _ _ placed =>
    have nonzero := (owned.pages _ placed).nonzero
    dsimp only at nonzero
    omega

theorem Stored.validate {block : Block} (stored : Stored debug heap owners) (held : block ∈ owners.live) (debugging : debug = true) :
    validateAllocationHeader heap block.pointer block.size block.align = some (block.header debug) := by
  unfold validateAllocationHeader
  rw [stored.headers debugging block held]
  refine if_pos ?_
  unfold Block.header
  split <;> exact ⟨rfl, rfl, rfl⟩

theorem deallocate_layout {block : Block} {live : List Block} (layout : Layout debug heap { owners with live := block :: live }) :
    ∃ heap' owners', deallocate debug block.pointer block.size block.align heap = some heap' ∧ Layout debug heap' owners' ∧
      owners'.live = live := by
  have released : ∀ {index}, block.place = some (block.pointer, index) → ∃ heap' owners',
      releaseSmall heap block.pointer index = some heap' ∧ Layout debug heap' owners' ∧ owners'.live = live := by
    intro index placed
    obtain ⟨heap', found, after⟩ := releaseSmall_layout layout placed
    exact ⟨heap', _, found, after, rfl⟩
  have unmapped : ∀ {mappingSize payloadOffset physicalSize}, classify block.size block.align = some (.direct mappingSize) →
      directLayout debug mappingSize block.align = some (payloadOffset, physicalSize) →
      Layout debug (heap.log (.unmapping (block.pointer - payloadOffset) physicalSize)) { owners with live } := by
    intro mappingSize payloadOffset physicalSize classified found
    exact ⟨layout.owned.unmap classified found, (layout.stored.drop rfl).log _⟩
  have placed := layout.owned.placed block List.mem_cons_self
  unfold deallocate
  rw [if_neg (layout.owned.pointer_nonzero List.mem_cons_self)]
  cases debug with
  | false =>
    rw [if_neg Bool.false_ne_true]
    cases placed with
    | small classified =>
      rw [classified]
      exact released (by simp only [Block.place, classified])
    | direct classified found =>
      rw [classified]
      cases found
      exact ⟨_, _, rfl, unmapped classified rfl, rfl⟩
  | true =>
    rw [if_pos rfl, layout.stored.validate List.mem_cons_self rfl, Option.bind_eq_bind, Option.bind_some]
    cases placed with
    | small classified =>
      have index := (classify_small classified).index
      have kind : ¬ (block.header true).kind = directKind := by
        simp only [Block.header, classified]
        exact Nat.ne_of_lt (Nat.lt_trans index (by decide))
      rw [if_neg kind]
      simp only [Block.header, classified]
      exact released (by simp only [Block.place, classified])
    | direct classified found =>
      have kind : (block.header true).kind = directKind := by simp only [Block.header, classified]
      rw [if_pos kind]
      simp only [Block.header, classified, mapping, found]
      exact ⟨_, _, rfl, unmapped classified found, rfl⟩

end Calls

end Rue.Proofs.Allocator
