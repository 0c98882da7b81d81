import Rue.Lib.Layout
import Rue.Linking.Image
import Rue.Proofs.Linking.Addresses

/-! The merge as a run: each step places one section behind its region, or
reserves one tentative definition. What every step keeps holds of the image. -/

namespace Rue.Proofs.Linking
open Rue.Linking Rue.Lib

structure SectionEntry where
  objIdx : Nat
  secIdx : Nat
  owner : LinkSection

def Known (linker : Linker) (entry : SectionEntry) : Prop :=
  ∃ obj, linker.objects[entry.objIdx]? = some obj ∧ obj.sections[entry.secIdx]? = some entry.owner

theorem Known.mem {linker : Linker} {entry : SectionEntry} (known : Known linker entry) :
    entry.owner ∈ linker.sections := by
  obtain ⟨obj, found, inside⟩ := known
  exact List.mem_flatMap.mpr ⟨obj, List.mem_of_getElem? found, List.mem_of_getElem? inside⟩

/-- The region a kind of section is merged into. -/
def home (policy : LayoutPolicy) : SectionKind → SectionKind
  | .rodata =>
    match policy.rodataHome with
    | .text => .text
    | .ownSegment => .rodata
  | kind => kind

def minAlign (policy : LayoutPolicy) : SectionKind → Nat
  | .text => policy.textMinAlign
  | .rodata => policy.rodataMinAlign
  | _ => 1

def regionLen (image : MergedImage) : SectionKind → Nat
  | .text => image.textLen
  | .rodata => image.rodataLen
  | .data => image.dataLen
  | .bss => image.bssSize
  | .other => 0

structure PlacesAt (policy : LayoutPolicy) (kind : SectionKind) (entry : SectionEntry) (image next : MergedImage)
    (offset : Nat) : Prop where
  behind : offset = alignUp (regionLen image (home policy kind)) (max entry.owner.align (minAlign policy kind)) ∨
    offset = max (regionLen image (home policy kind))
      (alignUp (regionLen image (home policy kind)) (max entry.owner.align (minAlign policy kind)))
  offsets : ∀ objIdx secIdx, next.sectionOffsets objIdx secIdx =
    if objIdx = entry.objIdx ∧ secIdx = entry.secIdx then some offset else image.sectionOffsets objIdx secIdx
  grown : regionLen next (home policy kind) = offset + loadedSize entry.owner
  others : ∀ region, region ≠ home policy kind → regionLen next region = regionLen image region
  commons : next.commonOffsets = image.commonOffsets

def MergeStep (policy : LayoutPolicy) (item : SectionKind × SectionEntry) (image next : MergedImage) : Prop :=
  if classifySection item.2.owner.name = item.1 ∧ loads item.2.owner then
    ∃ offset, PlacesAt policy item.1 item.2 image next offset
  else next = image

section Steps

variable {policy : LayoutPolicy} {objIdx secIdx : Nat} {obj : LinkObject} {owner : LinkSection}
  {image next : MergedImage}

end Steps

/-- A tentative definition whose object keeps the name's storage. -/
structure Reserves (linker : Linker) (entry : Nat × Symbol) (winner : Symbol) (align : Nat) : Prop where
  tentative : entry.2.common.isSome
  winning : linker.globalSymbols entry.2.name = some (entry.1, winner)
  common : winner.common = some align

def reserve (image : MergedImage) (name : Name) (size align : Nat) : MergedImage :=
  { image with
    commonOffsets := image.commonOffsets ++ [(name, alignUp image.bssSize (max align 1))]
    bssSize := alignUp image.bssSize (max align 1) + size }

inductive ReserveStep (linker : Linker) (entry : Nat × Symbol) (image : MergedImage) : MergedImage → Prop
  | reserved {winner : Symbol} {align : Nat} (reserves : Reserves linker entry winner align)
      (fresh : entry.2.name ∉ image.commonOffsets.map Prod.fst) :
      ReserveStep linker entry image (reserve image entry.2.name winner.size align)
  | skipped (known : ∀ winner align, Reserves linker entry winner align →
      entry.2.name ∈ image.commonOffsets.map Prod.fst) : ReserveStep linker entry image image

end Rue.Proofs.Linking
