import Rue.Proofs.Linking.Merging

/-! Where the merge puts things: aligned, apart from one another, and in every
region exactly what the objects have for it. -/

namespace Rue.Proofs.Linking
open Rue.Linking Rue.Lib

/-- What takes room in an image: a section's contents or a tentative definition. -/
inductive Item where
  | contents (objIdx secIdx : Nat)
  | tentative (name : Name)

/-- An item with its kind, its extent relative to its region, and its own alignment. -/
inductive Placed (linker : Linker) (image : MergedImage) : Item → SectionKind → Extent → Prop
  | contents {entry : SectionEntry} {offset : Nat} (known : Known linker entry)
      (offsets : image.sectionOffsets entry.objIdx entry.secIdx = some offset) :
      Placed linker image (.contents entry.objIdx entry.secIdx) (classifySection entry.owner.name)
        { start := offset, length := loadedSize entry.owner, align := entry.owner.align }
  | tentative {name : Name} {offset winnerObj align : Nat} {winner : Symbol}
      (reserved : (name, offset) ∈ image.commonOffsets) (winning : linker.globalSymbols name = some (winnerObj, winner))
      (common : winner.common = some align) :
      Placed linker image (.tentative name) .bss { start := offset, length := winner.size, align }

def InRegion (linker : Linker) (policy : LayoutPolicy) (image : MergedImage) (region : SectionKind) (item : Item)
    (extent : Extent) : Prop :=
  ∃ kind, Placed linker image item kind extent ∧ home policy kind = region

structure AlignedInputs (linker : Linker) : Prop where
  sections : ∀ owner ∈ linker.sections, owner.align.isPowerOfTwo
  tentative : ∀ name entry align, linker.globalSymbols name = some entry → entry.2.common = some align →
    align.isPowerOfTwo

/-- Room for a section and the gap before it. -/
def sectionRoom (owner : LinkSection) : Nat := if loads owner then loadedSize owner + max owner.align 8 else 0

def mergeRoom (item : SectionKind × SectionEntry) : Nat :=
  if classifySection item.2.owner.name = item.1 then sectionRoom item.2.owner else 0

def tentativeRoom (linker : Linker) (entry : Nat × Symbol) : Nat :=
  match linker.globalSymbols entry.2.name with
  | some (winnerObj, winner) =>
    if entry.2.common.isSome ∧ winnerObj = entry.1 then winner.size + max (winner.common.getD 1) 1 else 0
  | none => 0

def imageLen (image : MergedImage) : Nat := image.textLen + image.rodataLen + image.dataLen + image.bssSize

/-- Every region is a row, and with what is still to come the image fits. -/
structure Laid (linker : Linker) (policy : LayoutPolicy) (total need : Nat) (image : MergedImage) : Prop where
  rows : ∀ region, Row (InRegion linker policy image region) (regionLen image region)
  room : imageLen image + need ≤ total

section

variable {linker : Linker} {policy : LayoutPolicy} {image next : MergedImage} {total need : Nat}

theorem regionLen_le (image : MergedImage) (region : SectionKind) : regionLen image region ≤ imageLen image := by
  cases region <;> simp only [regionLen, imageLen] <;> omega

theorem imageLen_grown {region : SectionKind} (placed : region ≠ .other)
    (others : ∀ elsewhere, elsewhere ≠ region → regionLen next elsewhere = regionLen image elsewhere) :
    imageLen next + regionLen image region = imageLen image + regionLen next region := by
  have text := others .text
  have rodata := others .rodata
  have data := others .data
  have bss := others .bss
  simp only [regionLen] at text rodata data bss
  cases region with
  | other => exact absurd rfl placed
  | text =>
    simp only [imageLen, regionLen, rodata (by simp), data (by simp), bss (by simp)]
    omega
  | rodata =>
    simp only [imageLen, regionLen, text (by simp), data (by simp), bss (by simp)]
    omega
  | data =>
    simp only [imageLen, regionLen, text (by simp), rodata (by simp), bss (by simp)]
    omega
  | bss =>
    simp only [imageLen, regionLen, text (by simp), rodata (by simp), data (by simp)]
    omega

/-- Rounding on 64-bit words is rounding when it does not overflow. -/
theorem alignUp_eq (value : Nat) {align : Nat} (power : align.isPowerOfTwo) (small : value + align ≤ 2 ^ 64) :
    alignUp value align = roundUp value align := by
  obtain ⟨exponent, rfl⟩ := power
  have positive := Nat.two_pow_pos exponent
  rw [alignUp, and_high (by omega), roundUp, Nat.add_sub_assoc (by omega)]

theorem Laid.push (laid : Laid linker policy total need image) {item : Item} {kind : SectionKind} {extent : Extent}
    {align left : Nat} (power : align.isPowerOfTwo) (asked : extent.align ∣ align) (known : home policy kind ≠ .other)
    (start : extent.start = roundUp (regionLen image (home policy kind)) align)
    (grown : regionLen next (home policy kind) = extent.start + extent.length)
    (others : ∀ elsewhere, elsewhere ≠ home policy kind → regionLen next elsewhere = regionLen image elsewhere)
    (members : ∀ other found place, Placed linker next other found place →
      other = item ∧ found = kind ∧ place = extent ∨ Placed linker image other found place)
    (spent : left + (extent.length + align) ≤ need) : Laid linker policy total left next := by
  have positive := Nat.pos_of_isPowerOfTwo power
  have bound := roundUp_lt (regionLen image (home policy kind)) positive
  refine ⟨?_, ?_⟩
  · intro region
    by_cases here : region = home policy kind
    · rw [here, grown]
      refine @Row.push _ _ _ _ (laid.rows (home policy kind)) item extent ?_ ?_ ?_
      · rw [start]
        exact Nat.dvd_trans asked (dvd_roundUp _ _)
      · rw [start]
        exact le_roundUp _ positive
      · intro index place ⟨found, present, within⟩
        rcases members index found place present with ⟨same, -, equal⟩ | old
        · exact .inl ⟨same, equal⟩
        · exact .inr ⟨found, old, within⟩
    · rw [others region here]
      refine (laid.rows region).mono ?_ (Nat.le_refl _)
      intro index place ⟨found, present, within⟩
      rcases members index found place present with ⟨-, same, -⟩ | old
      · rw [same] at within
        exact absurd within.symm here
      · exact ⟨found, old, within⟩
  · have sum := @imageLen_grown image next _ known others
    have room := laid.room
    omega

theorem Laid.spend {left : Nat} (laid : Laid linker policy total need image) (less : left ≤ need) :
    Laid linker policy total left image where
  rows := laid.rows
  room := Nat.le_trans (Nat.add_le_add_left less _) laid.room

theorem minAlign_power (target : Target) (kind : SectionKind) :
    (minAlign (LayoutPolicy.forTarget target) kind).isPowerOfTwo := by
  cases target <;> cases kind <;>
    first | exact ⟨0, rfl⟩ | exact ⟨2, rfl⟩ | exact ⟨3, rfl⟩

theorem minAlign_le (target : Target) (kind : SectionKind) : minAlign (LayoutPolicy.forTarget target) kind ≤ 8 := by
  cases target <;> cases kind <;> decide

theorem home_ne_other (target : Target) {kind : SectionKind} (placed : kind ≠ .other) :
    home (LayoutPolicy.forTarget target) kind ≠ .other := by
  cases target <;> cases kind <;> first | exact absurd rfl placed | decide

theorem home_eq_data {kind : SectionKind} : home policy kind = .data ↔ kind = .data := by
  cases kind with
  | rodata =>
    simp only [home]
    split <;> simp
  | _ => simp [home]

theorem home_eq_bss {kind : SectionKind} : home policy kind = .bss ↔ kind = .bss := by
  cases kind with
  | rodata =>
    simp only [home]
    split <;> simp
  | _ => simp [home]

def dataStep (length : Nat) (owner : LinkSection) : Nat :=
  if classifySection owner.name = .data ∧ loads owner then roundUp length owner.align + owner.contentLen else length

/-- Where the initialized data ends when its sections follow one another. -/
def dataEnd (linker : Linker) : Nat := linker.sections.foldl dataStep 0

def dataMerge (length : Nat) (item : SectionKind × SectionEntry) : Nat :=
  if item.1 = .data then dataStep length item.2.owner else length

/-- What the merge has done of a list of sections, and what is left. -/
structure Merged (linker : Linker) (policy : LayoutPolicy) (total later : Nat) (rest : List (SectionKind × SectionEntry))
    (image : MergedImage) : Prop where
  known : ∀ item ∈ rest, Known linker item.2 ∧ item.1 ≠ .other
  laid : Laid linker policy total ((rest.map mergeRoom).sum + later) image
  commons : image.commonOffsets = []
  sound : ∀ entry offset, Known linker entry → image.sectionOffsets entry.objIdx entry.secIdx = some offset →
    loads entry.owner
  complete : ∀ entry, Known linker entry → loads entry.owner → (classifySection entry.owner.name, entry) ∈ rest ∨
    ∃ offset, image.sectionOffsets entry.objIdx entry.secIdx = some offset
  data : rest.foldl dataMerge image.dataLen = dataEnd linker
  rodata : (∀ kind, home policy kind ≠ .rodata) → image.rodataLen = 0
  bss : (∀ owner ∈ linker.sections, classifySection owner.name = .bss → owner.size = 0) → image.bssSize = 0

theorem Known.unique {entry other : SectionEntry} (known : Known linker entry) (found : Known linker other)
    (objects : other.objIdx = entry.objIdx) (sections : other.secIdx = entry.secIdx) : other = entry := by
  obtain ⟨_, _, _⟩ := entry
  obtain ⟨_, _, _⟩ := other
  obtain ⟨obj, first, inside⟩ := known
  obtain ⟨another, second, within⟩ := found
  simp only at objects sections first second inside within
  subst objects sections
  rw [first] at second
  cases second
  rw [inside] at within
  cases within
  rfl

theorem placed_of_placesAt {kind : SectionKind} {entry : SectionEntry} {offset : Nat} (known : Known linker entry)
    (isKind : classifySection entry.owner.name = kind) (places : PlacesAt policy kind entry image next offset)
    {item : Item} {found : SectionKind} {place : Extent} (placed : Placed linker next item found place) :
    item = .contents entry.objIdx entry.secIdx ∧ found = kind ∧
        place = { start := offset, length := loadedSize entry.owner, align := entry.owner.align } ∨
      Placed linker image item found place := by
  cases placed with
  | @contents other start found offsets =>
    rw [places.offsets] at offsets
    split at offsets
    next same =>
      cases offsets
      cases known.unique found same.1 same.2
      exact .inl ⟨rfl, isKind, rfl⟩
    next different => exact .inr (.contents found offsets)
  | tentative reserved winning common =>
    rw [places.commons] at reserved
    exact .inr (.tentative reserved winning common)

end

section Sections

variable {linker : Linker} {target : Target} {image next : MergedImage} {total later : Nat}
  {item : SectionKind × SectionEntry} {rest : List (SectionKind × SectionEntry)}

/-- The offset is rounded up from the end of the region: there is room for it. -/
theorem Merged.start (merged : Merged linker (LayoutPolicy.forTarget target) total later (item :: rest) image)
    (aligned : AlignedInputs linker) (fits : total ≤ 2 ^ 64) (isKind : classifySection item.2.owner.name = item.1)
    (loaded : loads item.2.owner) {offset : Nat}
    (places : PlacesAt (LayoutPolicy.forTarget target) item.1 item.2 image next offset) :
    offset = roundUp (regionLen image (home (LayoutPolicy.forTarget target) item.1))
      (max item.2.owner.align (minAlign (LayoutPolicy.forTarget target) item.1)) := by
  obtain ⟨known, -⟩ := merged.known item (List.mem_cons_self ..)
  have power := isPowerOfTwo_max (aligned.sections _ known.mem) (minAlign_power target item.1)
  have room := merged.laid.room
  have floor := minAlign_le target item.1
  have inside := regionLen_le image (home (LayoutPolicy.forTarget target) item.1)
  simp only [List.map_cons, List.sum_cons, mergeRoom, isKind, if_true, sectionRoom, loaded] at room
  have rounded := alignUp_eq (regionLen image (home (LayoutPolicy.forTarget target) item.1)) power (by omega)
  have above := le_roundUp (regionLen image (home (LayoutPolicy.forTarget target) item.1))
    (Nat.pos_of_isPowerOfTwo power)
  rcases places.behind with start | start <;> rw [start, rounded]
  exact Nat.max_eq_right above

theorem Merged.step (merged : Merged linker (LayoutPolicy.forTarget target) total later (item :: rest) image)
    (aligned : AlignedInputs linker) (fits : total ≤ 2 ^ 64)
    (stepped : MergeStep (LayoutPolicy.forTarget target) item image next) :
    Merged linker (LayoutPolicy.forTarget target) total later rest next := by
  obtain ⟨known, kind⟩ := merged.known item (List.mem_cons_self ..)
  have knownRest : ∀ other ∈ rest, Known linker other.2 ∧ other.1 ≠ .other :=
    fun other inside => merged.known other (List.mem_cons_of_mem _ inside)
  rw [MergeStep] at stepped
  split at stepped
  next placing =>
    obtain ⟨isKind, loaded⟩ := placing
    obtain ⟨offset, places⟩ := stepped
    have start := merged.start aligned fits isKind loaded places
    have power := aligned.sections _ known.mem
    have floor := minAlign_le target item.1
    refine ⟨knownRest, ?_, ?_, ?_, ?_, ?_, ?_, ?_⟩
    · refine merged.laid.push (isPowerOfTwo_max power (minAlign_power target item.1))
        (dvd_max_left power (minAlign_power target item.1)) (home_ne_other target kind) start places.grown places.others
        (fun _ _ _ placed => placed_of_placesAt known isKind places placed) ?_
      simp only [List.map_cons, List.sum_cons, mergeRoom, isKind, if_true, sectionRoom, loaded]
      omega
    · rw [places.commons]
      exact merged.commons
    · intro entry found present offsets
      rw [places.offsets] at offsets
      split at offsets
      next same =>
        cases known.unique present same.1 same.2
        exact loaded
      next different => exact merged.sound entry found present offsets
    · intro entry present wanted
      rw [places.offsets]
      split
      next same => exact .inr ⟨offset, rfl⟩
      next different =>
        rcases merged.complete entry present wanted with listed | found
        · rcases List.mem_cons.mp listed with same | inRest
          · cases same
            exact absurd ⟨rfl, rfl⟩ different
          · exact .inl inRest
        · exact .inr found
    · rw [← merged.data, List.foldl_cons, dataMerge]
      congr 1
      by_cases isData : item.1 = .data
      · have grown := places.grown
        have positive := Nat.pos_of_isPowerOfTwo power
        rw [home_eq_data.mpr isData] at grown start
        simp only [isData, minAlign, regionLen] at grown start
        rw [if_pos isData, dataStep, if_pos ⟨isKind.trans isData, loaded⟩, grown, start, Nat.max_eq_left positive]
        simp [loadedSize, isKind, isData]
      · rw [if_neg isData]
        exact places.others .data fun same => isData (home_eq_data.mp same.symm)
    · intro elsewhere
      exact (places.others .rodata (elsewhere item.1).symm).trans (merged.rodata elsewhere)
    · intro empty
      have before := merged.bss empty
      by_cases isBss : item.1 = .bss
      · have grown := places.grown
        rw [home_eq_bss.mpr isBss] at grown start
        simp only [regionLen, before] at grown start
        rw [grown, start, roundUp_of_dvd (Nat.pos_of_isPowerOfTwo (isPowerOfTwo_max power (minAlign_power target item.1)))
          (Nat.dvd_zero _), loadedSize, if_pos (isKind.trans isBss), empty _ known.mem (isKind.trans isBss)]
      · exact (places.others .bss fun same => isBss (home_eq_bss.mp same.symm)).trans before
  next skipping =>
    subst stepped
    refine ⟨knownRest, ?_, merged.commons, merged.sound, ?_, ?_, merged.rodata, merged.bss⟩
    · refine merged.laid.spend ?_
      simp only [List.map_cons, List.sum_cons]
      omega
    · intro entry present wanted
      rcases merged.complete entry present wanted with listed | found
      · rcases List.mem_cons.mp listed with same | inRest
        · cases same
          exact absurd ⟨rfl, wanted⟩ skipping
        · exact .inl inRest
      · exact .inr found
    · rw [← merged.data, List.foldl_cons, dataMerge]
      congr 1
      split
      next isData =>
        rw [dataStep, if_neg fun kept => skipping ⟨kept.1.trans isData.symm, kept.2⟩]
      · rfl

end Sections

/-- An image of all sections, and of the tentative definitions up to some point. -/
structure Arranged (linker : Linker) (policy : LayoutPolicy) (total need : Nat) (rest : List (Nat × Symbol))
    (image : MergedImage) : Prop where
  listed : ∀ entry ∈ rest, entry ∈ entries linker
  laid : Laid linker policy total need image
  sound : ∀ entry offset, Known linker entry → image.sectionOffsets entry.objIdx entry.secIdx = some offset →
    loads entry.owner
  complete : ∀ entry, Known linker entry → loads entry.owner →
    ∃ offset, image.sectionOffsets entry.objIdx entry.secIdx = some offset
  data : image.dataLen = dataEnd linker
  rodata : (∀ kind, home policy kind ≠ .rodata) → image.rodataLen = 0
  tentativeSound : ∀ name offset, (name, offset) ∈ image.commonOffsets →
    ∃ entry ∈ entries linker, entry.2.name = name ∧ ∃ winner align, Reserves linker entry winner align
  tentativeComplete : ∀ entry winner align, entry ∈ entries linker → Reserves linker entry winner align →
    entry ∈ rest ∨ ∃ offset, (entry.2.name, offset) ∈ image.commonOffsets
  bss : (∀ owner ∈ linker.sections, classifySection owner.name = .bss → owner.size = 0) →
    (∀ entry ∈ entries linker, ∀ winner align, Reserves linker entry winner align → winner.size = 0) → image.bssSize = 0

section Tentative

variable {linker : Linker} {policy : LayoutPolicy} {image next : MergedImage} {total : Nat} {entry : Nat × Symbol}
  {rest : List (Nat × Symbol)}

theorem Reserves.room {winner : Symbol} {align : Nat} (reserves : Reserves linker entry winner align) :
    tentativeRoom linker entry = winner.size + max align 1 := by
  rw [tentativeRoom, reserves.winning]
  simp only [reserves.common, Option.getD_some]
  rw [if_pos ⟨reserves.tentative, trivial⟩]

theorem Arranged.step
    (arranged : Arranged linker policy total (((entry :: rest).map (tentativeRoom linker)).sum) (entry :: rest) image)
    (aligned : AlignedInputs linker) (fits : total ≤ 2 ^ 64) (stepped : ReserveStep linker entry image next) :
    Arranged linker policy total ((rest.map (tentativeRoom linker)).sum) rest next := by
  have inside : entry ∈ entries linker := arranged.listed entry (List.mem_cons_self ..)
  have listed : ∀ other ∈ rest, other ∈ entries linker :=
    fun other present => arranged.listed other (List.mem_cons_of_mem _ present)
  cases stepped with
  | @reserved winner align reserves fresh =>
    have power := aligned.tentative _ _ _ reserves.winning reserves.common
    have positive := Nat.pos_of_isPowerOfTwo power
    have least : max align 1 = align := Nat.max_eq_left positive
    have room := arranged.laid.room
    simp only [List.map_cons, List.sum_cons, reserves.room, least] at room
    have within := regionLen_le image .bss
    simp only [regionLen] at within
    have start : alignUp image.bssSize (max align 1) = roundUp image.bssSize align := by
      rw [least]
      exact alignUp_eq _ power (by omega)
    refine ⟨listed, ?_, arranged.sound, arranged.complete, arranged.data, arranged.rodata, ?_, ?_, ?_⟩
    · refine @Laid.push _ _ _ _ _ _ arranged.laid (.tentative entry.2.name) .bss
        { start := alignUp image.bssSize (max align 1), length := winner.size, align } align _ power (Nat.dvd_refl _)
        (by simp [home]) start rfl ?_ ?_ ?_
      · intro region different
        cases region <;> first | rfl | exact absurd rfl different
      · intro other found place placed
        cases placed with
        | contents known offsets => exact .inr (.contents known offsets)
        | @tentative name offset winnerObj align' winner' reserved winning common =>
          rcases List.mem_append.mp reserved with old | new
          · exact .inr (.tentative old winning common)
          · cases List.mem_singleton.mp new
            rw [reserves.winning] at winning
            cases winning
            rw [reserves.common] at common
            cases common
            exact .inl ⟨rfl, rfl, rfl⟩
      · simp only [List.map_cons, List.sum_cons, reserves.room, least]
        omega
    · intro name offset present
      rcases List.mem_append.mp present with old | new
      · exact arranged.tentativeSound name offset old
      · cases List.mem_singleton.mp new
        exact ⟨entry, inside, rfl, winner, align, reserves⟩
    · intro other found asked present wanted
      rcases arranged.tentativeComplete other found asked present wanted with left | ⟨offset, done⟩
      · rcases List.mem_cons.mp left with same | later
        · subst same
          exact .inr ⟨_, List.mem_append_right _ (List.mem_singleton.mpr rfl)⟩
        · exact .inl later
      · exact .inr ⟨offset, List.mem_append_left _ done⟩
    · intro noSections noTentative
      have before := arranged.bss noSections noTentative
      show alignUp image.bssSize (max align 1) + winner.size = 0
      rw [start, before, roundUp_of_dvd positive (Nat.dvd_zero _), noTentative entry inside winner align reserves]
  | skipped known =>
    refine ⟨listed, ?_, arranged.sound, arranged.complete, arranged.data, arranged.rodata, arranged.tentativeSound, ?_,
      arranged.bss⟩
    · refine arranged.laid.spend ?_
      simp only [List.map_cons, List.sum_cons]
      omega
    · intro other found asked present wanted
      rcases arranged.tentativeComplete other found asked present wanted with left | done
      · rcases List.mem_cons.mp left with same | later
        · subst same
          obtain ⟨⟨_, offset⟩, there, named⟩ := List.mem_map.mp (known found asked wanted)
          cases named
          exact .inr ⟨offset, there⟩
        · exact .inl later
      · exact .inr done

end Tentative

end Rue.Proofs.Linking
