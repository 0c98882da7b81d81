import Rue.Lib.Memory
import Rue.Runtime.Integers

/-! Copying, filling and comparing memory, eight bytes at a time. -/

namespace Rue.Runtime.MemoryPrimitives
open Rue.Lib.Memory

abbrev chunkSize : Nat := 8

structure Space where
  readable : Nat → Bool
  writable : Nat → Bool

section Accesses
variable (space : Space) (memory : Bytes)

def readByte (a : Nat) : Except Trap (BitVec 8) := if space.readable a then .ok (memory a) else .error .outOfBounds

def writeByte (a : Nat) (value : BitVec 8) : Except Trap Bytes :=
  if space.writable a then .ok (Function.update memory a value) else .error .outOfBounds

def readChunk (src : Nat) : Except Trap (BitVec 64) :=
  if (List.range chunkSize).all fun k => space.readable (src + k) then .ok (.ofNat 64 (load memory src chunkSize))
  else .error .outOfBounds

def writeChunk (dst : Nat) (value : BitVec 64) : Except Trap Bytes :=
  if (List.range chunkSize).all fun k => space.writable (dst + k) then .ok (store memory dst value.toNat chunkSize)
  else .error .outOfBounds

end Accesses

def copyByte (space : Space) (dst src : Nat) (memory : Bytes) (k : Nat) : Except Trap Bytes := do
  writeByte space memory (dst + k) (← readByte space memory (src + k))

def copyForwardTail (space : Space) (memory : Bytes) (dst src remaining : Nat) : Except Trap Bytes :=
  if remaining < chunkSize then (List.range remaining).foldlM (copyByte space dst src) memory else .error .unreachable

def copyBackwardTail (space : Space) (memory : Bytes) (dst src remaining : Nat) : Except Trap Bytes :=
  if remaining < chunkSize then (List.range remaining).reverse.foldlM (copyByte space dst src) memory else .error .unreachable

def setTail (space : Space) (memory : Bytes) (dst : Nat) (value : BitVec 8) (remaining : Nat) : Except Trap Bytes :=
  if remaining < chunkSize then (List.range remaining).foldlM (fun memory k => writeByte space memory (dst + k) value) memory
  else .error .unreachable

/-- The bytes from number `k` on, of which some are left. -/
def compareBytes (space : Space) (memory : Bytes) (a b : Nat) : (left k : Nat) → Except Trap Int
  | 0, _ => .ok 0
  | remaining + 1, k => do
    let left ← readByte space memory (a + k)
    let right ← readByte space memory (b + k)
    if left ≠ right then return (left.toNat : Int) - right.toNat else compareBytes space memory a b remaining (k + 1)

def compareBounded (space : Space) (memory : Bytes) (a b remaining : Nat) : Except Trap Int :=
  if remaining ≤ chunkSize then compareBytes space memory a b remaining 0 else .error .unreachable

def copyForward (space : Space) : (fuel : Nat) → Bytes → (dst src remaining : Nat) → Except Trap Bytes
  | 0, _, _, _, _ => .error .endless
  | fuel + 1, memory, dst, src, remaining =>
    if remaining ≥ chunkSize then do
      let value ← readChunk space memory src
      let memory ← writeChunk space memory dst value
      copyForward space fuel memory (dst + chunkSize) (src + chunkSize) (remaining - chunkSize)
    else if remaining ≠ 0 then copyForwardTail space memory dst src remaining
    else .ok memory

def copyBackward (space : Space) : (fuel : Nat) → Bytes → (dst src remaining : Nat) → Except Trap Bytes
  | 0, _, _, _, _ => .error .endless
  | fuel + 1, memory, dst, src, remaining =>
    if remaining ≥ chunkSize then do
      let remaining := remaining - chunkSize
      let value ← readChunk space memory (src + remaining)
      let memory ← writeChunk space memory (dst + remaining) value
      copyBackward space fuel memory dst src remaining
    else if remaining ≠ 0 then copyBackwardTail space memory dst src remaining
    else .ok memory

/-- The pointer that is given back, and the memory after the call. -/
def memcpy (space : Space) (memory : Bytes) (dst src n : Nat) : Except Trap (Nat × Bytes) := do
  let memory ← copyForward space (n + 1) memory dst src n
  return (dst, memory)

def memmove (space : Space) (memory : Bytes) (dst src n : Nat) : Except Trap (Nat × Bytes) :=
  if dst < src then do
    let memory ← copyForward space (n + 1) memory dst src n
    return (dst, memory)
  else do
    let memory ← copyBackward space (n + 1) memory dst src n
    return (dst, memory)

def setChunks (space : Space) (chunk : BitVec 64) (byte : BitVec 8) :
    (fuel : Nat) → Bytes → (cursor remaining : Nat) → Except Trap Bytes
  | 0, _, _, _ => .error .endless
  | fuel + 1, memory, cursor, remaining =>
    if remaining ≥ chunkSize then do
      let memory ← writeChunk space memory cursor chunk
      setChunks space chunk byte fuel memory (cursor + chunkSize) (remaining - chunkSize)
    else if remaining ≠ 0 then setTail space memory cursor byte remaining
    else .ok memory

def memset (space : Space) (memory : Bytes) (dst : Nat) (c : BitVec 32) (n : Nat) : Except Trap (Nat × Bytes) := do
  let byte := c.setWidth 8
  let chunk := BitVec.ofNat 64 (load (fun _ => byte) 0 chunkSize)
  let memory ← setChunks space chunk byte (n + 1) memory dst n
  return (dst, memory)

/-! Comparing. The offset of a chunk is what the rest of the ranges lacks. -/

def compareChunks (space : Space) (memory : Bytes) (s1 s2 : Nat) : (fuel : Nat) → (offset remaining : Nat) → Except Trap Int
  | 0, _, _ => .error .endless
  | fuel + 1, offset, remaining =>
    if remaining ≥ chunkSize then do
      let a ← readChunk space memory (s1 + offset)
      let b ← readChunk space memory (s2 + offset)
      if a ≠ b then compareBounded space memory (s1 + offset) (s2 + offset) chunkSize
      else compareChunks space memory s1 s2 fuel (offset + chunkSize) (remaining - chunkSize)
    else if remaining = 0 then .ok 0
    else compareBounded space memory (s1 + offset) (s2 + offset) remaining

def memcmp (space : Space) (memory : Bytes) (s1 s2 n : Nat) : Except Trap Int := compareChunks space memory s1 s2 (n + 1) 0 n

def differingChunks (space : Space) (memory : Bytes) (s1 s2 : Nat) : (fuel : Nat) → (offset remaining : Nat) → Except Trap Int
  | 0, _, _ => .error .endless
  | fuel + 1, offset, remaining =>
    if remaining ≥ chunkSize then do
      let a ← readChunk space memory (s1 + offset)
      let b ← readChunk space memory (s2 + offset)
      if a ≠ b then return 1 else differingChunks space memory s1 s2 fuel (offset + chunkSize) (remaining - chunkSize)
    else if remaining = 0 then .ok 0
    else do
      let difference ← compareBounded space memory (s1 + offset) (s2 + offset) remaining
      return if difference ≠ 0 then 1 else 0

def bcmp (space : Space) (memory : Bytes) (s1 s2 n : Nat) : Except Trap Int := differingChunks space memory s1 s2 (n + 1) 0 n

end Rue.Runtime.MemoryPrimitives
