import Rue.Lib.BitField
import Rue.Linking.Linker

/-! Applying one relocation whose target is resolved: the bytes it patches, and
what the patched bytes mean to the machine. -/

namespace Rue.Linking

open Lib

/-- What `+` and `-` on `i64` do on an overflow: stop the program, or wrap. -/
inductive Arithmetic where
  | checked
  | wrapping
  deriving DecidableEq

namespace Arithmetic

def add (arith : Arithmetic) (first second : BitVec 64) : Option (BitVec 64) :=
  if arith = .checked ∧ first.saddOverflow second then none else some (first + second)

def sub (arith : Arithmetic) (first second : BitVec 64) : Option (BitVec 64) :=
  if arith = .checked ∧ first.ssubOverflow second then none else some (first - second)

end Arithmetic

inductive PatchError where
  | link (error : LinkError)
  | relocationOverflow (symbol : Name) (relType : RelocationType)
  | misaligned (symbol : Name) (relType : RelocationType) (lo12 : BitVec 32) (access : Nat)
  | notLoad (inst : BitVec 32) (symbol : Name)

/-- No result is an arithmetic overflow that stops the program. -/
abbrev Patching := Option (Except PatchError Bytes)

namespace Patch

variable (arith : Arithmetic) (buf : Bytes) (patchOffset : Nat) (place target addend : BitVec 64)
  (relType : RelocationType) (symName : Name)

/-- `S + A - P`. -/
def pcRelative : Option (BitVec 64) := do
  let sum ← arith.add target addend
  arith.sub sum place

def fits (bits : Nat) (value : BitVec 64) : Bool := -2 ^ (bits - 1) ≤ value.toInt ∧ value.toInt < 2 ^ (bits - 1)

def patchBranch : Patching :=
  (pcRelative arith place target addend).map fun value =>
    if value &&& 0x3#64 ≠ 0 then .error (.relocationOverflow symName relType)
    else
      let offset := value.sshiftRight 2
      if !fits 26 offset then .error (.relocationOverflow symName relType)
      else
        let inst := wordAt 32 buf patchOffset
        .ok (writeWord buf patchOffset ((inst &&& 0xFC000000#32) ||| (offset.setWidth 32 &&& 0x03FFFFFF#32)))

/-- The access size of a load or store, as the power of two. -/
def accessScale (inst : BitVec 32) : Nat :=
  let scale := (inst >>> 30).toNat
  if scale = 0 ∧ inst &&& 0x04800000#32 = 0x04800000 then 4 else scale

end Patch

namespace Machine

/-- The displacement of an AArch64 `B` or `BL`. -/
def branchOffset (inst : BitVec 32) : BitVec 64 := (inst.extractLsb' 0 26).signExtend 64 <<< 2

/-- The page displacement of an AArch64 `ADRP`. -/
def adrpOffset (inst : BitVec 32) : BitVec 64 :=
  ((inst.extractLsb' 5 19 ++ inst.extractLsb' 29 2).signExtend 64) <<< 12

def page (address : BitVec 64) : BitVec 64 := address &&& ~~~0xFFF#64

def pageOffset (address : BitVec 64) : BitVec 12 := address.setWidth 12

/-- The immediate of an AArch64 `ADD`, load or store, in units of its access. -/
def imm12 (inst : BitVec 32) : BitVec 12 := inst.extractLsb' 10 12

/-- The scale of the immediate: the size of the access, or one byte. -/
def immScale (inst : BitVec 32) : Nat := if inst &&& 0x3B000000#32 = 0x39000000 then Patch.accessScale inst else 0

/-- What an x86-64 instruction does with the value its operand stands for. The
prefixes before the opcode are part of none of these cases: patching keeps them. -/
inductive Effect where
  | setRegister (register : BitVec 8) (value : BitVec 64)
  | call (value : BitVec 64)
  | jump (value : BitVec 64)
  | operate (opcode modrm : BitVec 8) (value : BitVec 64)
  deriving DecidableEq

def regField (modrm : BitVec 8) : BitVec 8 := (modrm >>> 3) &&& 0x7#8

/-- The instruction with these two bytes before its displacement, which ends it at
`next`: a direct call or jump, an address, or an operand read from memory. -/
def effect (memory : BitVec 64 → BitVec 64) (opcode modrm : BitVec 8) (next displacement : BitVec 64) : Effect :=
  let address := next + displacement
  if opcode = 0x67 ∧ modrm = 0xE8 then .call address
  else if opcode = 0x67 ∧ modrm = 0xE9 then .jump address
  else if opcode = 0x8D then .setRegister (regField modrm) address
  else if opcode = 0x8B then .setRegister (regField modrm) (memory address)
  else if opcode = 0xFF ∧ regField modrm = 2 then .call (memory address)
  else if opcode = 0xFF ∧ regField modrm = 4 then .jump (memory address)
  else .operate opcode modrm (memory address)

end Machine

end Rue.Linking
