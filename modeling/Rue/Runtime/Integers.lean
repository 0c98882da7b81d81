import Mathlib.Algebra.Order.Ring.Int
import Mathlib.Data.Nat.Notation

/-! Integers of the running program read from and written to decimal text. -/

namespace Rue.Runtime

/-- How a runtime call can fail to return. -/
inductive Trap where
  | overflow
  | outOfBounds
  | outOfMemory
  | invalidUtf8
  | unreachable
  | endless
  deriving DecidableEq

@[simp] theorem Trap.ok_bind {A B : Type} (a : A) (rest : A → Except Trap B) : (Except.ok a >>= rest) = rest a := rfl

@[simp] theorem Trap.pure_eq {A : Type} (a : A) : (pure a : Except Trap A) = .ok a := rfl

namespace Integers

def i64Min : Int := -2 ^ 63

def i64Max : Int := 2 ^ 63 - 1

def u64Max : Nat := 2 ^ 64 - 1

/-- The results of machine arithmetic, which must not leave the type. -/
def i64 (v : Int) : Except Trap Int := if i64Min ≤ v ∧ v ≤ i64Max then .ok v else .error .overflow

def u64 (v : Nat) : Except Trap Nat := if v ≤ u64Max then .ok v else .error .overflow

def isAsciiDigit (byte : UInt8) : Bool := 48 ≤ byte.toNat && byte.toNat ≤ 57

/-- A digit put behind a number, if that fits; towards the least number for a
negative one. -/
def pushNegative (result : Int) (digit : Nat) : Except Trap (Option Int) :=
  if result < i64Min.tdiv 10 then .ok none
  else do
    let result ← i64 (result * 10)
    if result < (← i64 (i64Min + digit)) then return none else return some (← i64 (result - digit))

def pushPositive (result : Int) (digit : Nat) : Except Trap (Option Int) :=
  if result > i64Max.tdiv 10 then .ok none
  else do
    let result ← i64 (result * 10)
    if result > (← i64 (i64Max - digit)) then return none else return some (← i64 (result + digit))

def pushUnsigned (result digit : Nat) : Except Trap (Option Nat) :=
  if result > u64Max / 10 then .ok none
  else do
    let result ← u64 (result * 10)
    if result > u64Max - digit then return none else return some (← u64 (result + digit))

def parseDigits {V : Type} (push : V → Nat → Except Trap (Option V)) : List UInt8 → V → Except Trap (Option V)
  | [], result => .ok (some result)
  | byte :: rest, result =>
    if !isAsciiDigit byte then .ok none
    else do
      match ← push result (byte.toNat - 48) with
      | none => return none
      | some result => parseDigits push rest result

def parseI64Checked (bytes : List UInt8) : Except Trap (Option Int) :=
  match bytes with
  | [] => .ok none
  | first :: rest =>
    if first = 45 then if rest = [] then .ok none else parseDigits pushNegative rest 0
    else parseDigits pushPositive bytes 0

def parseU64Checked (bytes : List UInt8) : Except Trap (Option Nat) :=
  match bytes with
  | [] => .ok none
  | first :: _ => if first = 45 then .ok none else parseDigits pushUnsigned bytes 0

def parseI32Checked (bytes : List UInt8) : Except Trap (Option Int) := do
  match ← parseI64Checked bytes with
  | none => return none
  | some v => if v < -2 ^ 31 ∨ v > 2 ^ 31 - 1 then return none else return some (v.bmod (2 ^ 32))

def parseU32Checked (bytes : List UInt8) : Except Trap (Option Nat) := do
  match ← parseU64Checked bytes with
  | none => return none
  | some v => if v > 2 ^ 32 - 1 then return none else return some (v % 2 ^ 32)

/-! Formatting. The digits fill a buffer of twenty bytes from the back. -/

def stringMinCapacity : Nat := 16

structure StrBufResult where
  bytes : List UInt8
  cap : Nat

/-- A byte before the ones already there. -/
def put (buf : List UInt8) (i : Nat) (byte : UInt8) : Except Trap (List UInt8 × Nat) :=
  if i = 0 then .error .overflow
  else if i - 1 < buf.length then .ok (buf.set (i - 1) byte, i - 1)
  else .error .outOfBounds

def putDigits : (fuel : Nat) → List UInt8 → Nat → Nat → Except Trap (List UInt8 × Nat)
  | 0, _, _, _ => .error .endless
  | fuel + 1, buf, i, mag =>
    if mag > 0 then do
      let (buf, i) ← put buf i (48 + UInt8.ofNat (mag % 10))
      putDigits fuel buf i (mag / 10)
    else .ok (buf, i)

def putMagnitude (buf : List UInt8) (i mag : Nat) : Except Trap (List UInt8 × Nat) :=
  if mag = 0 then put buf i 48 else putDigits (i + 2) buf i mag

/-- The written bytes in a fresh allocation. -/
def allocated (room : Bool) (buf : List UInt8) (i : Nat) : Except Trap StrBufResult :=
  let len := buf.length - i
  let newCap := if len < stringMinCapacity then stringMinCapacity else len
  if room then .ok { bytes := buf.drop i, cap := newCap } else .error .outOfMemory

/-- `n` is an `i64`; the magnitude of the least one is its own bits. -/
def rueToString (room : Bool) (n : BitVec 64) : Except Trap StrBufResult := do
  let negative := n.slt 0
  let mag := if negative then -n else n
  let (buf, i) ← putMagnitude (List.replicate 20 0) 20 mag.toNat
  if negative then
    let (buf, i) ← put buf i 45
    allocated room buf i
  else allocated room buf i

def rueToStringUnsigned (room : Bool) (n : BitVec 64) : Except Trap StrBufResult := do
  let (buf, i) ← putMagnitude (List.replicate 20 0) 20 n.toNat
  allocated room buf i

end Integers

end Rue.Runtime
