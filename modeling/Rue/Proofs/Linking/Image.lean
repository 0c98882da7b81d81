import Mathlib
import Rue.Proofs.Linking.Placement
import Rue.Proofs.Linking.Resolution

/-! The linked image: sections at addresses that suit them, apart from one
another, with their bytes in the file where the segments map them. -/

namespace Rue.Proofs.Linking
open Rue.Linking Rue.Lib

def buffer (contents : Contents) : SectionKind → Bytes
  | .text => contents.text
  | .rodata => contents.rodata
  | .data => contents.data
  | .bss | .other => []

/-- Bytes for a header and regions of the sizes the layout is for. -/
structure Sized (linker : Linker) (image : MergedImage) (layout : ImageLayout) (contents : Contents) : Prop where
  header : contents.header.length = layout.headerLen
  text : contents.text.length = image.textLen
  rodata : contents.rodata.length = image.rodataLen
  data : contents.data.length = linker.paddedDataLen image

/-- Item `item` of kind `kind` takes the addresses from `address` on. -/
structure Lies (linker : Linker) (image : MergedImage) (layout : ImageLayout) (item : Item) (kind : SectionKind)
    (extent : Extent) (address : Nat) : Prop where
  placed : Placed linker image item kind extent
  based : (layout.bases.of kind).map (· + extent.start) = some address

structure PageAligned (target : Target) (objects : List LinkObject) : Prop where
  sections : ∀ obj ∈ objects, ∀ owner ∈ obj.sections, owner.align.isPowerOfTwo ∧ owner.align ≤ target.pageSize
  tentative : ∀ obj ∈ objects, ∀ symbol ∈ obj.symbols, ∀ align, symbol.common = some align →
    align.isPowerOfTwo ∧ align ≤ target.pageSize

/-- Where a layout puts the regions, in memory and in the file. -/
structure Mapped (target : Target) (linker : Linker) (image : MergedImage) (layout : ImageLayout)
    (base : SectionKind → Nat) : Prop where
  bases : ∀ kind, kind ≠ .other → layout.bases.of kind = some (base (home (LayoutPolicy.forTarget target) kind))
  apart : ∀ first second, first ≠ second → 0 < regionLen image first → 0 < regionLen image second →
    base first + regionLen image first ≤ base second ∨ base second + regionLen image second ≤ base first
  written : ∀ contents, Sized linker image layout contents → ∀ region, region ≠ .bss → 0 < regionLen image region →
    ∃ segment ∈ layout.segments, segment.vaddr ≤ base region ∧
      base region + regionLen image region ≤ segment.vaddr + segment.filesz ∧
      ∀ index, index < regionLen image region →
        (layout.file contents)[segment.fileOffset + (base region - segment.vaddr) + index]? =
          (buffer contents region)[index]?
  congruent : ∀ segment ∈ layout.segments, segment.fileOffset % target.pageSize = segment.vaddr % target.pageSize
  separate : ∀ first ∈ layout.segments, ∀ second ∈ layout.segments, first.writable → second.executable →
    target.pageSize ∣ first.vaddr ∧ second.vaddr + second.memsz ≤ first.vaddr
  zeroed : 0 < image.bssSize → ∃ segment ∈ layout.segments, segment.writable ∧
    segment.vaddr + segment.filesz ≤ base .bss ∧ base .bss + image.bssSize ≤ segment.vaddr + segment.memsz

section Mapped

variable {target : Target} {linker : Linker} {image : MergedImage} {layout : ImageLayout} {base : SectionKind → Nat}
  {total need : Nat}

theorem dataLen_le (linker : Linker) (image : MergedImage) : image.dataLen ≤ linker.paddedDataLen image := by
  rw [Linker.paddedDataLen]
  split
  · exact Nat.le_max_left _ _
  · exact Nat.le_refl _

theorem Sized.buffer {contents : Contents} (sized : Sized linker image layout contents) (region : SectionKind)
    (initialized : region ≠ .bss) : regionLen image region ≤ (buffer contents region).length := by
  cases region with
  | text => exact Nat.le_of_eq sized.text.symm
  | rodata => exact Nat.le_of_eq sized.rodata.symm
  | data =>
    simp only [regionLen, Linking.buffer, sized.data]
    exact dataLen_le linker image
  | bss => exact absurd rfl initialized
  | other => exact Nat.zero_le _

theorem Lies.region {item : Item} {kind : SectionKind} {extent : Extent} {address : Nat}
    (mapped : Mapped target linker image layout base)
    (laid : Laid linker (LayoutPolicy.forTarget target) total need image)
    (lies : Lies linker image layout item kind extent address) :
    address = base (home (LayoutPolicy.forTarget target) kind) + extent.start ∧
      extent.start + extent.length ≤ regionLen image (home (LayoutPolicy.forTarget target) kind) := by
  have placed : kind ≠ .other := by
    intro isOther
    subst isOther
    have based := lies.based
    simp [SectionBases.of] at based
  have based := lies.based
  rw [mapped.bases kind placed] at based
  exact ⟨(Option.some.inj based).symm, (laid.rows _).inside item extent ⟨kind, lies.placed, rfl⟩⟩

end Mapped

structure PagedLinker (target : Target) (linker : Linker) : Prop where
  sections : ∀ owner ∈ linker.sections, owner.align.isPowerOfTwo ∧ owner.align ≤ target.pageSize
  tentative : ∀ name entry align, linker.globalSymbols name = some entry → entry.2.common = some align →
    align.isPowerOfTwo ∧ align ≤ target.pageSize

/-- A power of two that divides the page size. -/
def Paged (target : Target) (align : Nat) : Prop := align.isPowerOfTwo ∧ align ≤ target.pageSize

theorem pageSize_power (target : Target) : target.pageSize.isPowerOfTwo := by
  cases target <;> first | exact ⟨12, rfl⟩ | exact ⟨14, rfl⟩

theorem Paged.dvd {target : Target} {align : Nat} (paged : Paged target align) : align ∣ target.pageSize :=
  dvd_of_isPowerOfTwo paged.1 (pageSize_power target) paged.2

theorem Paged.max {target : Target} {first second : Nat} (one : Paged target first) (another : Paged target second) :
    Paged target (max first second) :=
  ⟨isPowerOfTwo_max one.1 another.1, Nat.max_le.mpr ⟨one.2, another.2⟩⟩

theorem paged_one (target : Target) : Paged target 1 := ⟨Nat.isPowerOfTwo_one, by cases target <;> decide⟩

theorem paged_eight (target : Target) : Paged target 8 := ⟨⟨3, rfl⟩, by cases target <;> decide⟩

section Alignments

variable {target : Target} {linker : Linker} {image : MergedImage}

theorem PagedLinker.inputs (paged : PagedLinker target linker) : AlignedInputs linker where
  sections := fun owner inside => (paged.sections owner inside).1
  tentative := fun name entry align winning common => (paged.tentative name entry align winning common).1

theorem PagedLinker.regionAlign (paged : PagedLinker target linker) (kind : SectionKind) {floor : Nat}
    (least : Paged target floor) : Paged target (linker.regionAlign kind floor) := by
  refine foldl_keeps ?_ (paged_one target)
  intro owner inside align kept
  split
  · exact kept.max (Paged.max (paged.sections owner inside) least)
  · exact kept

/-- The strictest alignment asked of the zero-initialized region, before the floor
of its base. -/
def bssStrictest (linker : Linker) (image : MergedImage) : Nat :=
  image.commonOffsets.foldl (fun align entry =>
    match linker.globalSymbols entry.1 with
    | some (_, winner) => max align (max (winner.common.getD 1) 1)
    | none => align) (linker.regionAlign .bss 1)

theorem bssAlign_eq (linker : Linker) (image : MergedImage) : linker.bssAlign image =
    if 0 < image.bssSize then max (bssStrictest linker image) bssBaseMinAlign else bssStrictest linker image := rfl

theorem PagedLinker.bssAlign (paged : PagedLinker target linker) (image : MergedImage) : Paged target (linker.bssAlign image) := by
  have strictest : Paged target (bssStrictest linker image) := by
    refine foldl_keeps ?_ (paged.regionAlign .bss (paged_one target))
    rintro ⟨name, offset⟩ _ align kept
    simp only
    split
    next winnerObj winner winning =>
      refine kept.max (Paged.max ?_ (paged_one target))
      cases common : winner.common with
      | none => exact paged_one target
      | some align => exact paged.tentative _ _ _ winning common
    · exact kept
  rw [bssAlign_eq]
  split
  · exact strictest.max (paged_eight target)
  · exact strictest

/-- The data the file holds, when there is room to pad it. -/
theorem PagedLinker.paddedDataLen (paged : PagedLinker target linker) (room : image.dataLen + 2 ^ 15 ≤ 2 ^ 64) :
    linker.paddedDataLen image =
      if 0 < image.bssSize then roundUp image.dataLen (linker.bssAlign image) else image.dataLen := by
  rw [Linker.paddedDataLen]
  split
  · have page : target.pageSize ≤ 2 ^ 15 := by cases target <;> decide
    have bound := paged.bssAlign image
    rw [alignUp_eq _ bound.1 (by have := bound.2; omega)]
    exact Nat.max_eq_right (le_roundUp _ (Nat.pos_of_isPowerOfTwo bound.1))
  · rfl

end Alignments

end Rue.Proofs.Linking
