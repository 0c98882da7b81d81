import Rue.Linking.Patch

/-! An applied relocation patches its own field, so that the word or instruction
there means what the relocation asks for. -/

namespace Rue.Proofs.Linking
open Rue.Lib Rue.Linking Rue.Linking.Patch Rue.Linking.Machine

/-- The bits of a field are the old ones. -/
def Keeps (old word : BitVec 32) (position size : Nat) : Prop :=
  word.extractLsb' position size = old.extractLsb' position size

/-- What the patched word means, and which of its bits are the old ones. -/
def Denotes (relType : RelocationType) (buf after : Bytes) (start : Nat) (place target addend : BitVec 64) : Prop :=
  let old := wordAt 32 buf start
  let word := wordAt 32 after start
  let scaled (scale : Nat) := (imm12 word).toNat * 2 ^ scale = (pageOffset (target + addend)).toNat ∧
    Keeps old word 0 10 ∧ Keeps old word 22 10
  match relType with
  | .pc32 | .plt32 | .gotPcRel | .gotPcRelX | .rexGotPcRelX => word.signExtend 64 = target + addend - place
  | .abs64 | .aarch64Abs64 => wordAt 64 after start = target + addend
  | .abs32 => word.setWidth 64 = target + addend
  | .abs32S => word.signExtend 64 = target + addend
  | .jump26 | .call26 => branchOffset word = target + addend - place ∧ Keeps old word 26 6
  | .adrpPage21 | .gotLoadAdrpPage21 => page place + adrpOffset word = page (target + addend) ∧
      Keeps old word 0 5 ∧ Keeps old word 24 5 ∧ Keeps old word 31 1
  | .addLo12 => scaled (immScale word)
  | .ldst8Lo12 => scaled 0
  | .ldst16Lo12 => scaled 1
  | .ldst32Lo12 => scaled 2
  | .ldst64Lo12 => scaled 3
  | .ldst128Lo12 => scaled 4
  -- A 64-bit load becomes the addition to the same register.
  | .gotLoadPageOff12 => old.extractLsb' 22 10 = 0x3E5 ∧ word.extractLsb' 22 10 = 0x244 ∧
      imm12 word = pageOffset (target + addend) ∧ Keeps old word 0 5 ∧ Keeps old word 5 5
  | .unknown _ => False

variable {arith : Arithmetic} {buf after : Bytes} {start : Nat} {place target addend : BitVec 64}
  {relType : RelocationType} {symName : Name}

end Rue.Proofs.Linking
