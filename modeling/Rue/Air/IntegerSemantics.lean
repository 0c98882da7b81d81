import Mathlib.Algebra.Order.Ring.Int
import Mathlib.Data.Int.Init

/-! The integer kernel that evaluation, folding and lowering share: canonical
images, and checked and wrapping arithmetic by way of 128-bit integers. -/

namespace Rue.Air

/-! 128-bit operations that give nothing when the result has no room. -/

namespace I128

def ofExact (value : Int) : Option (BitVec 128) :=
  if -2 ^ 127 ≤ value ∧ value < 2 ^ 127 then some (BitVec.ofInt 128 value) else none

def checkedAdd (lhs rhs : BitVec 128) : Option (BitVec 128) := ofExact (lhs.toInt + rhs.toInt)

def checkedSub (lhs rhs : BitVec 128) : Option (BitVec 128) := ofExact (lhs.toInt - rhs.toInt)

def checkedMul (lhs rhs : BitVec 128) : Option (BitVec 128) := ofExact (lhs.toInt * rhs.toInt)

def checkedDiv (lhs rhs : BitVec 128) : Option (BitVec 128) :=
  if rhs = 0 then none else ofExact (lhs.toInt.tdiv rhs.toInt)

/-- Nothing where the quotient has no room either. -/
def checkedRem (lhs rhs : BitVec 128) : Option (BitVec 128) :=
  if rhs = 0 then none else (checkedDiv lhs rhs).bind fun _ => ofExact (lhs.toInt.tmod rhs.toInt)

def checkedNeg (value : BitVec 128) : Option (BitVec 128) := ofExact (-value.toInt)

end I128

/-- The mathematical result, and the result that the operation accepts. -/
structure CheckedIntegerResult where
  raw : Option (BitVec 128)
  checked : Option (BitVec 128)
  deriving DecidableEq

def CheckedIntegerResult.fromRaw (raw : Option (BitVec 128)) : CheckedIntegerResult := ⟨raw, raw⟩

structure IntegerType where
  bits : Nat
  signed : Bool
  supported : bits ∈ [8, 16, 32, 64]

namespace IntegerType

def new (bits : Nat) (signed : Bool) : Option IntegerType :=
  if supported : bits ∈ [8, 16, 32, 64] then some ⟨bits, signed, supported⟩ else none

variable (type : IntegerType)

def minI128 : BitVec 128 := if type.signed then -(1#128 <<< (type.bits - 1)) else 0

def maxI128 : BitVec 128 := if type.signed then (1#128 <<< (type.bits - 1)) - 1 else (1#128 <<< type.bits) - 1

def maskU128 : BitVec 128 := (1#128 <<< type.bits) - 1

def fitsI128 (value : BitVec 128) : Bool := type.minI128.sle value && value.sle type.maxI128

def canonicalizeI128 (value : BitVec 128) : BitVec 128 :=
  let masked := value &&& type.maskU128
  if type.signed && (1#128 <<< (type.bits - 1)).sle masked then masked - 1#128 <<< type.bits else masked

def maskU64 (value : BitVec 64) : BitVec 64 := value &&& type.maskU128.setWidth 64

def canonicalizeU64 (value : BitVec 64) : BitVec 64 := (type.canonicalizeI128 (value.setWidth 128)).setWidth 64

def shiftCountMask : BitVec 64 := BitVec.ofNat 64 type.bits - 1

def shiftCountI128 (value : BitVec 128) : Nat := (value &&& type.shiftCountMask.setWidth 128).toNat

def toI128 (value : BitVec 64) : BitVec 128 :=
  if type.signed then (type.canonicalizeU64 value).signExtend 128 else (type.maskU64 value).setWidth 128

def mapU64 (value : BitVec 128) : Option (BitVec 64) :=
  if type.fitsI128 value then some ((type.canonicalizeI128 value).setWidth 64) else none

def reportRaw (raw : Option (BitVec 128)) : CheckedIntegerResult := ⟨raw, raw.filter type.fitsI128⟩

def checkedBinaryReportI128 (lhs rhs : BitVec 128) (op : BitVec 128 → BitVec 128 → Option (BitVec 128)) : CheckedIntegerResult :=
  type.reportRaw (op (type.canonicalizeI128 lhs) (type.canonicalizeI128 rhs))

def checkedAddReportI128 (lhs rhs : BitVec 128) : CheckedIntegerResult := type.checkedBinaryReportI128 lhs rhs I128.checkedAdd

def checkedSubReportI128 (lhs rhs : BitVec 128) : CheckedIntegerResult := type.checkedBinaryReportI128 lhs rhs I128.checkedSub

def checkedMulReportI128 (lhs rhs : BitVec 128) : CheckedIntegerResult := type.checkedBinaryReportI128 lhs rhs I128.checkedMul

def checkedDivReportI128 (lhs rhs : BitVec 128) : CheckedIntegerResult :=
  let lhs := type.canonicalizeI128 lhs
  let rhs := type.canonicalizeI128 rhs
  if type.signed && lhs = type.minI128 && rhs = -1 then .fromRaw none
  else type.checkedBinaryReportI128 lhs rhs I128.checkedDiv

def checkedRemReportI128 (lhs rhs : BitVec 128) : CheckedIntegerResult :=
  let lhs := type.canonicalizeI128 lhs
  let rhs := type.canonicalizeI128 rhs
  let report := type.checkedBinaryReportI128 lhs rhs I128.checkedRem
  if type.signed && lhs = type.minI128 && rhs = -1 then .fromRaw none else report

def checkedNegReportI128 (value : BitVec 128) : CheckedIntegerResult :=
  type.reportRaw (I128.checkedNeg (type.canonicalizeI128 value))

def checkedAddI128 (lhs rhs : BitVec 128) : Option (BitVec 128) := (type.checkedAddReportI128 lhs rhs).checked

def checkedSubI128 (lhs rhs : BitVec 128) : Option (BitVec 128) := (type.checkedSubReportI128 lhs rhs).checked

def checkedMulI128 (lhs rhs : BitVec 128) : Option (BitVec 128) := (type.checkedMulReportI128 lhs rhs).checked

def checkedDivI128 (lhs rhs : BitVec 128) : Option (BitVec 128) := (type.checkedDivReportI128 lhs rhs).checked

def checkedRemI128 (lhs rhs : BitVec 128) : Option (BitVec 128) := (type.checkedRemReportI128 lhs rhs).checked

def checkedNegI128 (value : BitVec 128) : Option (BitVec 128) := (type.checkedNegReportI128 value).checked

/-- The count is below the width, so neither shift is by too much. -/
def shiftI128 (value amount : BitVec 128) (left : Bool) : BitVec 128 :=
  let amount := type.shiftCountI128 amount
  let value := type.canonicalizeI128 value
  type.canonicalizeI128 (if left then value <<< (amount % 128) else value.sshiftRight amount)

def checkedAddU64 (lhs rhs : BitVec 64) : Option (BitVec 64) :=
  (type.checkedAddI128 (type.toI128 lhs) (type.toI128 rhs)).bind type.mapU64

def checkedSubU64 (lhs rhs : BitVec 64) : Option (BitVec 64) :=
  (type.checkedSubI128 (type.toI128 lhs) (type.toI128 rhs)).bind type.mapU64

def checkedMulU64 (lhs rhs : BitVec 64) : Option (BitVec 64) :=
  (type.checkedMulI128 (type.toI128 lhs) (type.toI128 rhs)).bind type.mapU64

def checkedDivU64 (lhs rhs : BitVec 64) : Option (BitVec 64) :=
  (type.checkedDivI128 (type.toI128 lhs) (type.toI128 rhs)).bind type.mapU64

def checkedRemU64 (lhs rhs : BitVec 64) : Option (BitVec 64) :=
  (type.checkedRemI128 (type.toI128 lhs) (type.toI128 rhs)).bind type.mapU64

def checkedNegU64 (value : BitVec 64) : Option (BitVec 64) :=
  (type.checkedNegI128 (type.toI128 value)).bind type.mapU64

def wrappingAddU64 (lhs rhs : BitVec 64) : BitVec 64 := type.canonicalizeU64 (lhs + rhs)

def wrappingSubU64 (lhs rhs : BitVec 64) : BitVec 64 := type.canonicalizeU64 (lhs - rhs)

def wrappingMulU64 (lhs rhs : BitVec 64) : BitVec 64 := type.canonicalizeU64 (lhs * rhs)

def shiftU64 (value amount : BitVec 64) (left : Bool) : BitVec 64 :=
  (type.shiftI128 (type.toI128 value) (amount.setWidth 128) left).setWidth 64

def bitnotU64 (value : BitVec 64) : BitVec 64 := type.canonicalizeU64 (~~~value)

def compareU64 (lhs rhs : BitVec 64) : Ordering := compare (type.toI128 lhs).toInt (type.toI128 rhs).toInt

end IntegerType

end Rue.Air
