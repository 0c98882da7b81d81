import Mathlib.Algebra.Order.Ring.Int
import Mathlib.Data.List.Basic

/-! Object files as the linker reads them: sections, the symbol table and the
relocations, from the tables of an ELF or a Mach-O file. -/

namespace Rue.Linking

abbrev Name := List Char

inductive SymbolBinding where
  | localBinding
  | globalBinding
  | weakBinding
  deriving DecidableEq

structure Symbol where
  name : Name
  sectionIndex : Option Nat
  absolute : Bool
  value : Nat
  size : Nat
  binding : SymbolBinding
  common : Option Nat
  deriving DecidableEq

def Symbol.isDefinition (symbol : Symbol) : Bool :=
  symbol.sectionIndex.isSome || symbol.common.isSome || symbol.absolute

inductive RelocationType where
  | abs64
  | pc32
  | plt32
  | gotPcRel
  | rexGotPcRelX
  | gotPcRelX
  | abs32
  | abs32S
  | jump26
  | call26
  | aarch64Abs64
  | adrpPage21
  | addLo12
  | ldst8Lo12
  | ldst16Lo12
  | ldst32Lo12
  | ldst64Lo12
  | ldst128Lo12
  | gotLoadAdrpPage21
  | gotLoadPageOff12
  | unknown (code : Nat)
  deriving DecidableEq

/-- What a relocation entry of the file names. No operation of the linker reads
it; it is kept beside the symbol index the parser settles on. -/
inductive Reference where
  | symbol (index : Nat)
  | sectionStart (index : Nat)
  deriving DecidableEq

structure Relocation where
  offset : Nat
  symbolIndex : Nat
  relType : RelocationType
  addend : Int
  reference : Reference

/-- A section of a normalized object. Of its contents only the length matters. -/
structure LinkSection where
  name : Name
  contentLen : Nat
  size : Nat
  alloc : Bool
  relocations : List Relocation
  align : Nat

structure LinkObject where
  sections : List LinkSection
  symbols : List Symbol

inductive ParseError where
  | notImplemented
  | invalidSymbol
  | relocationOutOfBounds
  deriving DecidableEq

inductive ElfMachine where
  | x86_64
  | aarch64
  deriving DecidableEq

namespace RelocationType

def ofElf (code : Nat) : ElfMachine → RelocationType
  | .x86_64 =>
    match code with
    | 1 => .abs64
    | 2 => .pc32
    | 4 => .plt32
    | 9 => .gotPcRel
    | 10 => .abs32
    | 11 => .abs32S
    | 41 => .gotPcRelX
    | 42 => .rexGotPcRelX
    | _ => .unknown code
  | .aarch64 =>
    match code with
    | 257 => .aarch64Abs64
    | 275 => .adrpPage21
    | 277 => .addLo12
    | 278 => .ldst8Lo12
    | 284 => .ldst16Lo12
    | 285 => .ldst32Lo12
    | 286 => .ldst64Lo12
    | 299 => .ldst128Lo12
    | 282 => .jump26
    | 283 => .call26
    | _ => .unknown code

def ofMacho (code : Nat) : RelocationType :=
  match code with
  | 0 => .aarch64Abs64
  | 2 => .call26
  | 3 => .adrpPage21
  | 4 => .addLo12
  | 5 => .gotLoadAdrpPage21
  | 6 => .gotLoadPageOff12
  | _ => .unknown code

end RelocationType

structure ElfSymbolEntry where
  name : Name
  info : Nat
  shndx : Nat
  value : Nat
  size : Nat

def elfBinding (info : Nat) : SymbolBinding :=
  match info >>> 4 with
  | 0 => .localBinding
  | 1 => .globalBinding
  | 2 => .weakBinding
  | _ => .localBinding

/-- A section symbol without a name takes its section's. -/
def elfSymbolName (sections : List LinkSection) (entry : ElfSymbolEntry) : Name :=
  if entry.info &&& 0xf = 3 ∧ entry.name = [] ∧ entry.shndx ≠ 0 then
    match sections[entry.shndx]? with
    | some referenced => referenced.name
    | none => entry.name
  else entry.name

def parseElfSymbol (sections : List LinkSection) (entry : ElfSymbolEntry) : Except ParseError Symbol :=
  let symbol (sectionIndex common : Option Nat) (absolute : Bool) (value : Nat) : Symbol :=
    { name := elfSymbolName sections entry
      sectionIndex, absolute, value, size := entry.size, binding := elfBinding entry.info, common }
  if entry.shndx = 0xfff2 then .ok (symbol none (some (max entry.value 1)) false 0)
  else if entry.shndx = 0xffff then .error .notImplemented
  else if entry.shndx = 0xfff1 then .ok (symbol none none true entry.value)
  else if entry.shndx = 0 ∨ 0xff00 ≤ entry.shndx then .ok (symbol none none false entry.value)
  else if entry.shndx < sections.length then .ok (symbol (some entry.shndx) none false entry.value)
  else .error .invalidSymbol

structure ElfRelaEntry where
  offset : Nat
  info : Nat
  addend : Int

def parseElfRela (machine : ElfMachine) (entry : ElfRelaEntry) : Option Relocation :=
  let code := entry.info &&& 0xffffffff
  if code = 0 then none
  else some {
    offset := entry.offset
    symbolIndex := entry.info >>> 32
    relType := RelocationType.ofElf code machine
    addend := entry.addend
    reference := .symbol (entry.info >>> 32) }

/-- An ELF object: one section per header, the symbol entries, and for each
relocation section its target and its entries. -/
structure ElfTables where
  machine : ElfMachine
  sections : List LinkSection
  symbols : List ElfSymbolEntry
  rela : List (Nat × List ElfRelaEntry)

def addRelocations (sections : List LinkSection) (target : Nat) (relocations : List Relocation) : List LinkSection :=
  sections.modify target fun patched => { patched with relocations := patched.relocations ++ relocations }

def parseElf (tables : ElfTables) : Except ParseError LinkObject := do
  let bare := tables.sections.map fun header => { header with relocations := [] }
  let symbols ← tables.symbols.mapM (parseElfSymbol bare)
  let sections := tables.rela.foldl
    (fun sections rela => addRelocations sections rela.1 (rela.2.filterMap (parseElfRela tables.machine))) bare
  .ok { sections, symbols }

structure NlistEntry where
  name : Name
  type : Nat
  sect : Nat
  desc : Nat
  value : Nat

def machoSymbolBinding (type desc : Nat) : SymbolBinding :=
  let weakBit := if type &&& 0x0E = 0 then 0x0040 else 0x0080
  if type &&& 0x01 = 0 then .localBinding
  else if desc &&& weakBit ≠ 0 then .weakBinding
  else .globalBinding

def stripMachoUnderscore : Name → Name
  | '_' :: rest => rest
  | name => name

/-- Values in the file's layout become offsets into the symbol's section. -/
def parseNlist (addresses : List Nat) (entry : NlistEntry) : Except ParseError Symbol :=
  let symbol (sectionIndex : Option Nat) (value : Nat) : Symbol :=
    { name := stripMachoUnderscore entry.name
      sectionIndex, absolute := false, value, size := 0
      binding := machoSymbolBinding entry.type entry.desc, common := none }
  if entry.type &&& 0x0E = 0x0E ∧ 0 < entry.sect then
    match addresses[entry.sect - 1]? with
    | none => .error .invalidSymbol
    | some address =>
      if address ≤ entry.value then .ok (symbol (some (entry.sect - 1)) (entry.value - address))
      else .error .invalidSymbol
  else .ok (symbol none entry.value)

/-- One `relocation_info` entry, with the bytes at its patch site read as the
two widths an embedded addend can have. -/
structure MachoReloc where
  address : Nat
  info : Nat
  embedded32 : Option Int
  embedded64 : Option Int

namespace MachoReloc

def symbolnum (entry : MachoReloc) : Nat := entry.info &&& 0x00FFFFFF

def length (entry : MachoReloc) : Nat := (entry.info >>> 25) &&& 3

def rExtern (entry : MachoReloc) : Bool := (entry.info >>> 27) &&& 1 = 1

def type (entry : MachoReloc) : Nat := (entry.info >>> 28) &&& 0xF

/-- The signed 24-bit addend of an `ARM64_RELOC_ADDEND` entry. -/
def addend (entry : MachoReloc) : Int :=
  if entry.symbolnum < 0x800000 then entry.symbolnum else entry.symbolnum - 0x1000000

def embedded (entry : MachoReloc) : Except ParseError Int :=
  match entry.length with
  | 2 => entry.embedded32.elim (.error .relocationOutOfBounds) .ok
  | 3 => entry.embedded64.elim (.error .relocationOutOfBounds) .ok
  | _ => .error .invalidSymbol

end MachoReloc

/-- A section with its address in the file's layout. -/
structure MachoSection where
  header : LinkSection
  addr : Nat
  relocs : List MachoReloc

structure MachoTables where
  sections : List MachoSection
  symbols : List NlistEntry

/-- The first named symbol at offset 0 of each section. -/
def sectionAnchors (symbols : List Symbol) (referenced : Nat) : Option Nat :=
  symbols.findIdx? fun symbol =>
    symbol.sectionIndex = some referenced ∧ symbol.value = 0 ∧ symbol.name ≠ []

/-- What the relocations read so far have made of the symbol table and the
anchors, and the addend that waits for the next entry. -/
structure MachoReader where
  symbols : List Symbol
  anchors : Nat → Option Nat
  pendingAddend : Int

namespace MachoReader

def mintedAnchor (referenced : Nat) (name : Name) : Symbol :=
  { name, sectionIndex := some referenced, absolute := false, value := 0, size := 0
    binding := .localBinding, common := none }

/-- The anchor of a section, minted under the section's name if it has none. -/
def anchor (reader : MachoReader) (referenced : Nat) (name : Name) : MachoReader × Nat :=
  match reader.anchors referenced with
  | some index => (reader, index)
  | none =>
    ({ reader with
       symbols := reader.symbols ++ [mintedAnchor referenced name]
       anchors := fun other => if other = referenced then some reader.symbols.length else reader.anchors other },
      reader.symbols.length)

/-- The symbol a relocation entry resolves to. -/
def symbolIndex (reader : MachoReader) (sections : List LinkSection) (entry : MachoReloc) :
    Except ParseError (MachoReader × Nat × Reference) :=
  if entry.rExtern then
    if entry.symbolnum < reader.symbols.length then .ok (reader, entry.symbolnum, .symbol entry.symbolnum)
    else .error .invalidSymbol
  else if entry.symbolnum = 0 then .error .invalidSymbol
  else
    match sections[entry.symbolnum - 1]? with
    | none => .error .invalidSymbol
    | some referenced =>
      let (reader, index) := reader.anchor (entry.symbolnum - 1) referenced.name
      .ok (reader, index, .sectionStart (entry.symbolnum - 1))

/-- An embedded addend is the target's address in the file's layout unless the
entry names a symbol. -/
def addend (reader : MachoReader) (addresses : List Nat) (entry : MachoReloc) : Except ParseError Int :=
  if entry.type = 0 then do
    let embedded ← entry.embedded
    let base : Int := if entry.rExtern then 0 else (addresses[entry.symbolnum - 1]?.getD 0 : Nat)
    .ok (reader.pendingAddend + embedded - base)
  else .ok reader.pendingAddend

def read (sections : List LinkSection) (addresses : List Nat) (state : MachoReader × List Relocation)
    (entry : MachoReloc) : Except ParseError (MachoReader × List Relocation) :=
  if entry.type = 10 then .ok ({ state.1 with pendingAddend := entry.addend }, state.2)
  else do
    let (reader, symbolIndex, reference) ← state.1.symbolIndex sections entry
    let addend ← state.1.addend addresses entry
    .ok ({ reader with pendingAddend := 0 }, state.2 ++ [{
      offset := entry.address
      symbolIndex
      relType := RelocationType.ofMacho entry.type
      addend
      reference }])

def readSection (sections : List LinkSection) (addresses : List Nat) (reader : MachoReader)
    (entries : List MachoReloc) : Except ParseError (MachoReader × List Relocation) :=
  entries.foldlM (read sections addresses) ({ reader with pendingAddend := 0 }, [])

/-- Each section's entries in turn; the symbol table grows along the way. -/
def readAll (sections : List LinkSection) (addresses : List Nat) :
    MachoReader → List MachoSection → Except ParseError (MachoReader × List LinkSection)
  | reader, [] => .ok (reader, [])
  | reader, patched :: rest => do
    let (reader, relocations) ← readSection sections addresses reader patched.relocs
    let (reader, done) ← readAll sections addresses reader rest
    .ok (reader, { patched.header with relocations } :: done)

end MachoReader

def parseMacho (tables : MachoTables) : Except ParseError LinkObject := do
  let addresses := tables.sections.map MachoSection.addr
  let symbols ← tables.symbols.mapM (parseNlist addresses)
  let reader := { symbols, anchors := sectionAnchors symbols, pendingAddend := 0 : MachoReader }
  let (reader, sections) ← MachoReader.readAll (tables.sections.map MachoSection.header) addresses reader
    tables.sections
  .ok { sections, symbols := reader.symbols }

/-- What the linker can be given: a file of either format, or a structured
object of the compiler's own, whose relocations name symbols. -/
inductive Input where
  | elf (tables : ElfTables)
  | macho (tables : MachoTables)
  | structured (sections : List LinkSection) (symbols : List Symbol)

def Input.load : Input → Except ParseError LinkObject
  | .elf tables => parseElf tables
  | .macho tables => parseMacho tables
  | .structured sections symbols =>
    let named (relocation : Relocation) := { relocation with reference := .symbol relocation.symbolIndex }
    .ok { sections := sections.map fun owner => { owner with relocations := owner.relocations.map named }, symbols }

end Rue.Linking
