import Mathlib.Algebra.Order.Ring.Int
import Mathlib.Data.List.Basic

/-! Little-endian words in byte buffers, and fields of bits in words. -/

namespace Rue.Lib

abbrev Bytes := List (BitVec 8)

/-- The bytes of a word from its least significant one. -/
def leBytes {width : Nat} (count : Nat) (word : BitVec width) : Bytes :=
  (List.range count).map fun index => word.extractLsb' (8 * index) 8

def ofLeBytes (width : Nat) : Bytes → BitVec width
  | [] => 0
  | byte :: rest => byte.setWidth width ||| ofLeBytes width rest <<< 8

/-- The word of some bytes at an offset of a buffer. -/
def wordAt (width : Nat) (buffer : Bytes) (start : Nat) : BitVec width :=
  ofLeBytes width ((buffer.drop start).take (width / 8))

def overwrite (buffer : Bytes) (start : Nat) (bytes : Bytes) : Bytes :=
  buffer.take start ++ bytes ++ buffer.drop (start + bytes.length)

def writeWord {width : Nat} (buffer : Bytes) (start : Nat) (word : BitVec width) : Bytes :=
  overwrite buffer start (leBytes (width / 8) word)

variable {width : Nat} {buffer bytes : Bytes} {start index : Nat}

@[simp] theorem length_leBytes (count : Nat) (word : BitVec width) : (leBytes count word).length = count := by
  simp [leBytes]

end Rue.Lib
