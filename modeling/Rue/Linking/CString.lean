import Rue.Lib.Utf8

/-! The strings of an object file, read in chunks of bounded size. A chunk that
ends inside a scalar is lengthened until it does not. -/

namespace Rue.Linking.CString
open Rue.Lib.Utf8

inductive StringError where
  | invalidStringTable
  | endless
  deriving DecidableEq

def chunkSize : Nat := 64 * 1024

theorem chunkSize_pos : 0 < chunkSize := by decide

/-- Where the string ends: before the first zero byte, or with the data. -/
def cstringEnd (data : List UInt8) (fin : Nat) : Nat :=
  if data.length = 0 then fin
  else
    match (data.take chunkSize).findIdx? (· = 0) with
    | some relative => fin + relative
    | none => cstringEnd (data.drop chunkSize) (fin + (data.take chunkSize).length)
termination_by data.length
decreasing_by
  have := chunkSize_pos
  rw [List.length_drop]
  omega

section

variable (bytes : List UInt8)

def chunk (offset chunkEnd : Nat) : List UInt8 := (bytes.drop offset).take (chunkEnd - offset)

/-- The converted part of one chunk and where to go on. The loops have no bound in
the source; the tries left are there to show that they end. -/
def convertChunk (offset : Nat) : Nat → Nat → Except StringError (List UInt8 × Nat)
  | 0, _ => .error .endless
  | tries + 1, chunkEnd =>
    match fromUtf8 (chunk bytes offset chunkEnd) with
    | .valid => .ok (chunk bytes offset chunkEnd, chunkEnd)
    | .invalid validUpTo (some errorLen) =>
      .ok (chunk bytes offset (offset + validUpTo) ++ replacement, offset + validUpTo + errorLen)
    | .invalid validUpTo none =>
      if chunkEnd = bytes.length then .ok (chunk bytes offset (offset + validUpTo) ++ replacement, bytes.length)
      else convertChunk offset tries (min bytes.length (chunkEnd + 3))

def convert : Nat → List UInt8 → Nat → Except StringError (List UInt8)
  | 0, _, _ => .error .endless
  | tries + 1, output, offset =>
    if offset < bytes.length then do
      let (converted, offset) ← convertChunk bytes offset (bytes.length + 1) (min bytes.length (offset + chunkSize))
      convert tries (output ++ converted) offset
    else .ok output

def validateChunk (validated : Nat) : Nat → Nat → Except StringError Nat
  | 0, _ => .error .endless
  | tries + 1, chunkEnd =>
    match fromUtf8 (chunk bytes validated chunkEnd) with
    | .valid => .ok chunkEnd
    | .invalid _ errorLen =>
      if errorLen.isSome ∨ chunkEnd = bytes.length then .error .invalidStringTable
      else validateChunk validated tries (min bytes.length (chunkEnd + 3))

def validate : Nat → Nat → Except StringError Unit
  | 0, _ => .error .endless
  | tries + 1, validated =>
    if validated < bytes.length then do
      let validated ← validateChunk bytes validated (bytes.length + 1) (min bytes.length (validated + chunkSize))
      validate tries validated
    else .ok ()

end

/-- The bytes of the string that is read, converted where they are not valid. -/
def readCstring (data : List UInt8) : Except StringError (List UInt8) :=
  let bytes := data.take (cstringEnd data 0)
  convert bytes (bytes.length + 1) [] 0

/-- The string at an offset, if it is valid. -/
def readUtf8Cstring (data : List UInt8) (offset : Nat) : Except StringError (List UInt8) :=
  if offset > data.length then .error .invalidStringTable
  else do
    let bytes := (data.drop offset).take (cstringEnd (data.drop offset) offset - offset)
    validate bytes (bytes.length + 1) 0
    return bytes

end Rue.Linking.CString
