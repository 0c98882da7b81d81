import Rue.Lib.BitField
import Rue.Linking.Admission

/-! The image a link writes: where the output format puts the merged regions in
memory and in the file, and the file itself. -/

namespace Rue.Linking

open Rue.Lib (Bytes)

namespace Target

def pageSize : Target → Nat
  | .x86_64Linux | .aarch64Linux => 0x1000
  | .aarch64Macos => 0x4000

end Target

def bssBaseMinAlign : Nat := 8

/-- Empty code and data sections are not placed; read-only ones are, as a symbol
can be at their start. -/
def loads (owner : LinkSection) : Bool :=
  match classifySection owner.name with
  | .text | .data => owner.contentLen ≠ 0
  | .rodata | .bss => true
  | .other => false

def loadedSize (owner : LinkSection) : Nat :=
  if classifySection owner.name = .bss then owner.size else owner.contentLen

namespace Linker

def sections (linker : Linker) : List LinkSection := linker.objects.flatMap LinkObject.sections

/-- The strictest alignment of the sections merged into a region. -/
def regionAlign (linker : Linker) (kind : SectionKind) (minAlign : Nat) : Nat :=
  linker.sections.foldl (fun align owner =>
    if classifySection owner.name = kind ∧ loads owner then max align (max owner.align minAlign) else align) 1

/-- Tentative definitions count for the zero-initialized region, as does the
floor for its base. -/
def bssAlign (linker : Linker) (image : MergedImage) : Nat :=
  let align := image.commonOffsets.foldl (fun align (name, _) =>
    match linker.globalSymbols name with
    | some (_, winner) => max align (max (winner.common.getD 1) 1)
    | none => align) (linker.regionAlign .bss 1)
  if 0 < image.bssSize then max align bssBaseMinAlign else align

/-- Initialized data is padded to where the zero-initialized region may start. -/
def paddedDataLen (linker : Linker) (image : MergedImage) : Nat :=
  if 0 < image.bssSize then max image.dataLen (alignUp image.dataLen (linker.bssAlign image)) else image.dataLen

end Linker

structure Segment where
  fileOffset : Nat
  vaddr : Nat
  filesz : Nat
  memsz : Nat
  writable : Bool
  executable : Bool

/-- The regions' addresses, the segments of the headers, and the file offsets
the regions are written at after a header of some size. -/
structure ImageLayout where
  bases : SectionBases
  segments : List Segment
  headerLen : Nat
  textOffset : Nat
  rodataOffset : Option Nat
  dataOffset : Option Nat
  endOffset : Nat

section

variable (target : Target) (linker : Linker) (image : MergedImage)

end

section

variable (target : Target) (linker : Linker) (image : MergedImage)

end

/-- The header and the relocated bytes of the regions. -/
structure Contents where
  header : Bytes
  text : Bytes
  rodata : Bytes
  data : Bytes

def padTo (file : Bytes) (length : Nat) : Bytes := file ++ List.replicate (length - file.length) 0

def writeAt (file : Bytes) (offset : Option Nat) (bytes : Bytes) : Bytes :=
  match offset with
  | some start => padTo file start ++ bytes
  | none => file

/-- What is written: the header, then each region the layout has a place for. -/
def ImageLayout.file (layout : ImageLayout) (contents : Contents) : Bytes :=
  let file := writeAt contents.header (some layout.textOffset) contents.text
  let file := writeAt file layout.rodataOffset contents.rodata
  let file := writeAt file layout.dataOffset contents.data
  padTo file layout.endOffset

namespace Linker

end Linker

end Rue.Linking
