import Rue.Collections.ArrayBuf
import Rue.Lib.Asking

/-! Byte strings: searching them for a needle, splitting at it, replacing it and
joining pieces. A panic over an index that is not there stops as out of bounds. -/

namespace Rue.Collections
open Rue.Lib.Asking

abbrev Alloc (A : Type) := Rue.Lib.Asking Stop A

/-- The bytes of a buffer or a borrowed `str`, counted by a `u64`. -/
structure StrBuf where
  bytes : List UInt8
  small : bytes.length < 2 ^ 64
  deriving DecidableEq

namespace StrBuf

def new : StrBuf := ⟨[], by decide⟩

def len (self : StrBuf) : Nat := self.bytes.length

def readPackedByte (self : StrBuf) (index : Nat) : Except Stop UInt8 :=
  match self.bytes[index]? with
  | some byte => .ok byte
  | none => .error .outOfBounds

/-- The loop of `matches_at`, from byte `i` of the needle on. -/
def matchLoop (self : StrBuf) (pos : Nat) (needle : StrBuf) : Nat → Nat → Except Stop Bool
  | 0, _ => .error .endless
  | tries + 1, i =>
    if i < needle.len then do
      let here ← self.readPackedByte (← U64.add pos i)
      let there ← needle.readPackedByte i
      if here ≠ there then return false
      matchLoop self pos needle tries (← U64.add i 1)
    else .ok true

def matchesAt (self : StrBuf) (pos : Nat) (needle : StrBuf) : Except Stop Bool :=
  if self.len < pos then .ok false
  else do
    if (← U64.sub self.len pos) < needle.len then return false
    matchLoop self pos needle (needle.len + 1) 0

def findLoop (self needle : StrBuf) (limit : Nat) : Nat → Nat → Except Stop (Option Nat)
  | 0, _ => .error .endless
  | tries + 1, pos =>
    if pos ≤ limit then do
      if ← self.matchesAt pos needle then return some pos
      findLoop self needle limit tries (← U64.add pos 1)
    else .ok none

def findStrFrom (self needle : StrBuf) (start : Nat) : Except Stop (Option Nat) :=
  if self.len < start then .ok none
  else do
    if (← U64.sub self.len start) < needle.len then return none
    let limit ← U64.sub self.len needle.len
    findLoop self needle limit (self.len + 2) start

def rfindLoop (self needle : StrBuf) : Nat → Nat → Except Stop (Option Nat)
  | 0, _ => .error .endless
  | tries + 1, pos => do
    if ← self.matchesAt pos needle then return some pos
    if pos = 0 then return none
    rfindLoop self needle tries (← U64.sub pos 1)

def rfindStr (self needle : StrBuf) : Except Stop (Option Nat) :=
  if self.len < needle.len then .ok none
  else do rfindLoop self needle (self.len + 1) (← U64.sub self.len needle.len)

variable (room : Nat → Bool)

/-- Growth by some bytes, which may be more than a `u64` counts. -/
def extend (self : StrBuf) (more : List UInt8) : Alloc StrBuf :=
  if fits : self.bytes.length + more.length < 2 ^ 64 then do
    ask room .outOfMemory
    return ⟨self.bytes ++ more, by rwa [List.length_append]⟩
  else throw .outOfMemory

def push (self : StrBuf) (byte : UInt8) : Alloc StrBuf := self.extend room [byte]

def appendStr (self source : StrBuf) : Alloc StrBuf := self.extend room source.bytes

def pushStr (self other : StrBuf) : Alloc StrBuf := self.extend room other.bytes

theorem range_small (self : StrBuf) (start count : Nat) : ((self.bytes.drop start).take count).length < 2 ^ 64 := by
  have small := self.small
  rw [List.length_take, List.length_drop]
  omega

def byteRange (self : StrBuf) (start count : Nat) : Alloc StrBuf :=
  if self.len < start then throw .outOfBounds
  else do
    if (← U64.sub self.len start) < count then throw .outOfBounds
    if count = 0 then return new
    ask room .outOfMemory
    return ⟨(self.bytes.drop start).take count, self.range_small start count⟩

end StrBuf

namespace Strings
open StrBuf

variable (room : Nat → Bool)

abbrev Parts := List StrBuf

def pushPart (parts : Parts) (part : StrBuf) : Alloc Parts := fun asked => ArrayBuf.push room parts asked part

def boundedByteAt (s : StrBuf) (index : Nat) : Except Stop UInt8 := s.readPackedByte index

/-- Each byte from `i` on as a piece of its own. -/
def splitBytes (s : StrBuf) : Nat → Nat → Parts → Alloc Parts
  | 0, _, _ => throw .endless
  | tries + 1, i, out =>
    if i < s.len then do
      let out ← pushPart room out (← s.byteRange room i 1)
      splitBytes s tries (← U64.add i 1) out
    else return out

/-- The pieces up to the last separator, and where the rest starts. -/
def splitLoop (s sep : StrBuf) : Nat → Nat → Parts → Alloc (Parts × Nat)
  | 0, _, _ => throw .endless
  | tries + 1, start, out => do
    match ← s.findStrFrom sep start with
    | some pos =>
      let out ← pushPart room out (← s.byteRange room start (← U64.sub pos start))
      splitLoop s sep tries (← U64.add pos sep.len) out
    | none => return (out, start)

def splitStr (s sep : StrBuf) : Alloc Parts :=
  if sep.len = 0 then do
    let out ← pushPart room [] StrBuf.new
    let out ← splitBytes room s (s.len + 1) 0 out
    pushPart room out StrBuf.new
  else do
    let (out, start) ← splitLoop room s sep (s.len + 1) 0 []
    pushPart room out (← s.byteRange room start (← U64.sub s.len start))

/-- The bytes from `i` up to `stop` copied behind the output. -/
def copyLoop (s : StrBuf) (stop : Nat) : Nat → Nat → StrBuf → Alloc StrBuf
  | 0, _, _ => throw .endless
  | tries + 1, i, out =>
    if i < stop then do
      let out ← out.push room (← boundedByteAt s i)
      copyLoop s stop tries (← U64.add i 1) out
    else return out

/-- Each byte from `i` on with the replacement behind it. -/
def replaceBytes (s replacement : StrBuf) : Nat → Nat → StrBuf → Alloc StrBuf
  | 0, _, _ => throw .endless
  | tries + 1, i, out =>
    if i < s.len then do
      let out ← out.push room (← boundedByteAt s i)
      let out ← out.appendStr room replacement
      replaceBytes s replacement tries (← U64.add i 1) out
    else return out

def replaceLoop (s needle replacement : StrBuf) : Nat → Nat → StrBuf → Alloc (StrBuf × Nat)
  | 0, _, _ => throw .endless
  | tries + 1, start, out => do
    match ← s.findStrFrom needle start with
    | some pos =>
      let out ← copyLoop room s pos (s.len + 1) start out
      let out ← out.appendStr room replacement
      replaceLoop s needle replacement tries (← U64.add pos needle.len) out
    | none => return (out, start)

def replace (s needle replacement : StrBuf) : Alloc StrBuf :=
  if needle.len = 0 then do
    let out ← StrBuf.new.appendStr room replacement
    replaceBytes room s replacement (s.len + 1) 0 out
  else do
    let (out, start) ← replaceLoop room s needle replacement (s.len + 1) 0 StrBuf.new
    copyLoop room s s.len (s.len + 1) start out

def reverseParts : Nat → Parts → Parts → Alloc Parts
  | 0, _, _ => throw .endless
  | tries + 1, source, reversed =>
    if 0 < source.length then
      match ArrayBuf.pop source with
      | (some part, rest) => do reverseParts tries rest (← pushPart room reversed part)
      | (none, _) => throw .outOfBounds
    else return reversed

def joinLoop (sep : StrBuf) : Nat → Parts → Bool → StrBuf → Alloc StrBuf
  | 0, _, _, _ => throw .endless
  | tries + 1, reversed, first, out =>
    if 0 < reversed.length then
      match ArrayBuf.pop reversed with
      | (some part, rest) => do
        let out ← (if first then pure out else out.appendStr room sep)
        let out ← out.pushStr room part
        joinLoop sep tries rest false out
      | (none, _) => throw .outOfBounds
    else return out

def join (parts : Parts) (sep : StrBuf) : Alloc StrBuf := do
  let reversed ← reverseParts room (parts.length + 1) parts []
  joinLoop room sep (reversed.length + 1) reversed true StrBuf.new

end Strings

end Rue.Collections
