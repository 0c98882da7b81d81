import Rue.Air.IntegerSemantics
import Rue.Cfg.Semantics

/-! Full unrolling: how often a counted loop runs. -/

namespace Rue

def Ty.integerSemantics : Ty → Option Air.IntegerType
  | .i8 => Air.IntegerType.new 8 true
  | .u8 => Air.IntegerType.new 8 false
  | .i16 => Air.IntegerType.new 16 true
  | .u16 => Air.IntegerType.new 16 false
  | .i32 => Air.IntegerType.new 32 true
  | .u32 => Air.IntegerType.new 32 false
  | .i64 => Air.IntegerType.new 64 true
  | .u64 => Air.IntegerType.new 64 false
  | _ => none

namespace Unroll

open Air

def toU64 (value : BitVec 128) : Option Nat :=
  if 0 ≤ value.toInt ∧ value.toInt < 2 ^ 64 then some value.toInt.toNat else none

/-- The turns of a loop that counts up. The predicate is a code: 0 for less, 1 for
at most, 2 for more, 3 for at least. -/
def risingCount (initial bound step : BitVec 128) (cmp : Nat) : Option Nat :=
  if cmp = 2 ∨ cmp = 3 then none
  else if cmp = 0 ∧ bound.sle initial ∨ cmp = 1 ∧ bound.slt initial then some 0
  else do
    let delta ← I128.checkedSub bound initial
    let less ← I128.checkedSub step 1
    let raised ← I128.checkedAdd delta less
    let n ← I128.checkedDiv raised step
    if cmp = 1 then (I128.checkedAdd (delta.sdiv step) 1).bind toU64 else toU64 n

/-- The turns of a loop that counts down. -/
def fallingCount (initial bound step : BitVec 128) (cmp : Nat) : Option Nat :=
  if cmp = 0 ∨ cmp = 1 then none
  else if cmp = 2 ∧ initial.sle bound ∨ cmp = 3 ∧ initial.slt bound then some 0
  else do
    let delta ← I128.checkedSub initial bound
    let magnitude ← I128.checkedNeg step
    if cmp = 3 then (I128.checkedAdd (delta.sdiv magnitude) 1).bind toU64
    else do
      let less ← I128.checkedSub magnitude 1
      let raised ← I128.checkedAdd delta less
      let n ← I128.checkedDiv raised magnitude
      toU64 n

def turnCount (initial bound step : BitVec 128) (cmp : Nat) : Option Nat :=
  if (0 : BitVec 128).slt step then risingCount initial bound step cmp else fallingCount initial bound step cmp

/-- The turns of the loop, if no update overflows; the last turn's included. -/
def checkedTripCount (initial bound step : BitVec 128) (cmp : Nat) (ty : Ty) : Option Nat :=
  if step = 0 then none
  else do
    let count ← turnCount initial bound step cmp
    let integer ← ty.integerSemantics
    if !integer.fitsI128 initial then none
    else do
      let change ← I128.checkedMul step (BitVec.ofNat 128 count)
      let finalValue ← I128.checkedAdd change initial
      if !integer.fitsI128 finalValue then none else some count

end Unroll

end Rue
