import Rue.Lib.TrappingInt

/-! The integer functions of the library, over any trapping integer type. A loop has
as many tries as its operands allow. -/

namespace Rue.Runtime.Math
open Rue.Lib Rue.Lib.TrappingInt

variable {T : TrappingInt}

def gcdLoop : Nat → T.Value → T.Value → Except TrappingInt.Trap T.Value
  | 0, _, _ => .error .endless
  | tries + 1, x, y => if y.val ≠ 0 then do gcdLoop tries y (← rem x y) else .ok x

/-- The loop from the operands on, and the sign put right at its end. -/
def gcdFrom (a b : T.Value) : Except TrappingInt.Trap T.Value := do
  let x ← gcdLoop (b.val.natAbs + 1) a b
  if x.val < 0 then
    if x = intMin then throw .panic
    return ← sub zero x
  return x

/-- The operands of magnitude 1 are answered before the loop of a signed type. -/
def gcd (a b : T.Value) : Except TrappingInt.Trap T.Value :=
  if (intMin : T.Value).val ≠ 0 then do
    let minusOne ← sub zero one
    if a = one ∨ b = one ∨ a = minusOne ∨ b = minusOne then return one
    gcdFrom a b
  else gcdFrom a b

def lcm (a b : T.Value) : Except TrappingInt.Trap T.Value :=
  if a = zero then .ok zero
  else if b = zero then .ok zero
  else if a = intMin ∨ b = intMin then .error .panic
  else do
    let m ← mul (← div a (← gcd a b)) b
    if m.val < 0 then neg m else return m

/-- The loop of `pow`; the base is not squared once no bit is left. -/
def powLoop : Nat → Nat → T.Value → T.Value → Except TrappingInt.Trap T.Value
  | 0, _, _, _ => .error .endless
  | tries + 1, e, b, result =>
    if e > 0 then do
      let result ← (if e % 2 = 1 then mul result b else .ok result)
      let b ← (if e / 2 > 0 then mul b b else .ok b)
      powLoop tries (e / 2) b result
    else .ok result

def pow (base : T.Value) (exp : Nat) : Except TrappingInt.Trap T.Value := powLoop (exp + 1) exp base one

def isqrtLoop (n : T.Value) : Nat → T.Value → T.Value → T.Value → Except TrappingInt.Trap T.Value
  | 0, _, _, _ => .error .endless
  | tries + 1, lo, hi, ans =>
    if lo.val ≤ hi.val then do
      let mid ← add lo (← div (← sub hi lo) two)
      if mid.val ≤ (← div n mid).val then isqrtLoop n tries (← add mid one) hi mid
      else isqrtLoop n tries lo (← sub mid one) ans
    else .ok ans

def isqrt (n : T.Value) : Except TrappingInt.Trap T.Value := if n.val < 2 then .ok n else isqrtLoop n (n.val.toNat + 1) one n one

def isPrimeLoop (n : T.Value) : Nat → T.Value → Except TrappingInt.Trap Bool
  | 0, _ => .error .endless
  | tries + 1, i => do
    if i.val ≤ (← div n i).val then
      if (← rem n i).val = 0 then return false
      isPrimeLoop n tries (← add i one)
    else return true

def isPrime (n : T.Value) : Except TrappingInt.Trap Bool := if n.val < 2 then .ok false else isPrimeLoop n (n.val.toNat + 1) two

def checkedAdd (a b : T.Value) : Except TrappingInt.Trap (Option T.Value) := do
  if b.val > 0 then
    if a.val > (← sub intMax b).val then return none
  else
    if a.val < (← sub intMin b).val then return none
  return some (← add a b)

def checkedSub (a b : T.Value) : Except TrappingInt.Trap (Option T.Value) := do
  if b.val < 0 then
    if a.val > (← add intMax b).val then return none
  else
    if a.val < (← add intMin b).val then return none
  return some (← sub a b)

/-- Whether a signed product leaves the type, for factors that are neither 0 nor -1. -/
def signedOverflow (a b : T.Value) : Except TrappingInt.Trap Bool := do
  if a.val > 0 then
    if b.val > 0 then return a.val > (← div intMax b).val
    else return b.val < (← div intMin a).val
  else
    if b.val > 0 then return a.val < (← div intMin b).val
    else return a.val < (← div intMax b).val

def checkedMul (a b : T.Value) : Except TrappingInt.Trap (Option T.Value) := do
  if a = zero ∨ b = zero then return some zero
  if (intMin : T.Value).val = 0 then
    if a.val > (← div intMax b).val then return none
    return some (← mul a b)
  let minusOne ← sub zero one
  if a = minusOne then
    if b = intMin then return none
    return some (← mul a b)
  if b = minusOne then
    if a = intMin then return none
    return some (← mul a b)
  if ← signedOverflow a b then return none
  return some (← mul a b)

end Rue.Runtime.Math
