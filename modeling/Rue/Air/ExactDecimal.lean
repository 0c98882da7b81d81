import Rue.Lib.Decimal

/-! Canonical texts of exact decimal literals, with exponents that are decimal texts
too, and the notation in which a person reads them. -/

namespace Rue.Air.ExactDecimal
open Rue.Lib.Decimal

abbrev Text := List UInt8

/-- The text before and behind the first of some bytes. -/
def splitOnce (marker : UInt8 → Bool) (text : Text) : Option (Text × Text) :=
  match text.dropWhile fun byte => !marker byte with
  | [] => none
  | _ :: behind => some (text.takeWhile fun byte => !marker byte, behind)

def trimStartMatches (text : Text) : Text := text.dropWhile (· = 48)

/-! Magnitudes, least significant digit first within the loops. -/

/-- The loop ends when both are read and nothing is carried. -/
def addDigits (lhs rhs : Text) (carry : Nat) : Text :=
  if lhs = [] ∧ rhs = [] ∧ carry = 0 then []
  else
    let sum := lhs.head?.elim 0 digit + rhs.head?.elim 0 digit + carry
    ofDigit (sum % 10) :: addDigits lhs.tail rhs.tail (sum / 10)
  termination_by (lhs.length + rhs.length, carry)
  decreasing_by
    rcases lhs with _ | ⟨l, lhs⟩
    · rcases rhs with _ | ⟨r, rhs⟩
      · simp_all
        exact Prod.Lex.right _ (Nat.div_lt_self (by omega) (by decide))
      · exact Prod.Lex.left _ _ (by simp)
    · exact Prod.Lex.left _ _ (by simp; omega)

def addMagnitudes (lhs rhs : Text) : Text := (addDigits lhs.reverse rhs.reverse 0).reverse

/-- A digit less the borrow may be -1, which is less than any digit. -/
def subtractDigits : Text → Text → Nat → Text
  | [], _, _ => []
  | l :: lhs, rhs, borrow =>
    let r := rhs.head?.elim 0 digit
    if digit l < borrow + r then ofDigit (digit l + 10 - borrow - r) :: subtractDigits lhs rhs.tail 1
    else ofDigit (digit l - borrow - r) :: subtractDigits lhs rhs.tail 0

/-- Zeros popped off the most significant end, down to the last digit. -/
def popZeros : Text → Text
  | [] => []
  | [byte] => [byte]
  | byte :: next :: rest => if byte = 48 then popZeros (next :: rest) else byte :: next :: rest

def subtractMagnitudes (lhs rhs : Text) : Text := popZeros (subtractDigits lhs.reverse rhs.reverse 0).reverse

def compareBytes : Text → Text → Ordering
  | [], [] => .eq
  | [], _ :: _ => .lt
  | _ :: _, [] => .gt
  | a :: lhs, b :: rhs => (compare a.toNat b.toNat).then (compareBytes lhs rhs)

def compareMagnitudes (lhs rhs : Text) : Ordering := (compare lhs.length rhs.length).then (compareBytes lhs rhs)

/-- The sign of a number, and its digits. -/
def signSplit (text : Text) : Bool × Text :=
  match text with
  | 45 :: rest => (true, rest)
  | 43 :: rest => (false, rest)
  | _ => (false, text)

structure SignedDecimal where
  negative : Bool
  magnitude : Text
  deriving DecidableEq

namespace SignedDecimal

def parse (text : Text) : Option SignedDecimal :=
  let (negative, magnitude) := signSplit text
  if magnitude = [] ∨ ¬magnitude.all isDigit then none
  else
    let magnitude := trimStartMatches magnitude
    some ⟨negative && magnitude ≠ [], if magnitude = [] then [48] else magnitude⟩

def addSignedCount (self : SignedDecimal) (positive : Bool) (count : Nat) : SignedDecimal :=
  if count = 0 then self
  else
    let rhs := spelling count
    if self.negative ≠ positive then { self with magnitude := addMagnitudes self.magnitude rhs }
    else
      match compareMagnitudes self.magnitude rhs with
      | .gt => { self with magnitude := subtractMagnitudes self.magnitude rhs }
      | .eq => ⟨false, [48]⟩
      | .lt => ⟨!self.negative, subtractMagnitudes rhs self.magnitude⟩

def render (self : SignedDecimal) : Text := if self.negative then 45 :: self.magnitude else self.magnitude

end SignedDecimal

def canonicalDecimalLiteral (text : Text) : Option Text :=
  let (mantissa, exponent) := (splitOnce (fun byte => byte = 101 || byte = 69) text).getD (text, [48])
  let (whole, fraction) := (splitOnce (fun byte => byte = 46) mantissa).getD (mantissa, [])
  if whole = [] ∨ ¬whole.all isDigit ∨ ¬fraction.all isDigit then none
  else
    let digits := trimStartMatches (whole ++ fraction)
    if digits = [] then some [48, 101, 48]
    else
      let trailing := (digits.reverse.takeWhile (· = 48)).length
      let significand := digits.take (digits.length - trailing)
      (SignedDecimal.parse exponent).map fun exponent =>
        significand ++ 101 :: ((exponent.addSignedCount false fraction.length).addSignedCount true trailing).render

def i64Min : Int := -2 ^ 63

def i64Max : Int := 2 ^ 63 - 1

def fitsI64 (value : Int) : Bool := i64Min ≤ value && value ≤ i64Max

/-- `str::parse::<i64>`. -/
def parseI64 (text : Text) : Option Int :=
  let (negative, magnitude) := signSplit text
  if magnitude = [] ∨ ¬magnitude.all isDigit then none
  else
    let value : Int := if negative then -(accumulate 0 magnitude : Int) else accumulate 0 magnitude
    if fitsI64 value then some value else none

def spellInt (value : Int) : Text := if value < 0 then 45 :: spelling value.natAbs else spelling value.natAbs

def plainText (digits : Text) (exponent point : Int) : Text :=
  if 0 ≤ exponent then digits ++ List.replicate exponent.toNat 48 ++ [46, 48]
  else if 0 < point then digits.take point.toNat ++ 46 :: digits.drop point.toNat
  else [48, 46] ++ List.replicate (-point).toNat 48 ++ digits

def scientificText (digits : Text) (scientific : Int) : Text :=
  let lead := digits.take 1
  let rest := digits.drop 1
  let sign : Text := if 0 ≤ scientific then [43] else []
  if rest = [] then lead ++ 101 :: (sign ++ spellInt scientific)
  else lead ++ 46 :: (rest ++ 101 :: (sign ++ spellInt scientific))

/-- Nothing where 64-bit arithmetic overflows. -/
def displayFloatValueText (text : Text) : Option Text :=
  let (sign, magnitude) : Text × Text :=
    match text with
    | 45 :: rest => ([45], rest)
    | _ => ([], text)
  match splitOnce (fun byte => byte = 101) magnitude with
  | none => some text
  | some (digits, exponent) =>
    match parseI64 exponent with
    | none => some text
    | some exponent =>
      if digits = [] ∨ ¬digits.all isDigit then some text
      else if i64Max < digits.length then some text
      else
        let point := digits.length + exponent
        if !fitsI64 point then none
        else if -4 ≤ point ∧ point ≤ 16 then some (sign ++ plainText digits exponent point)
        else if !fitsI64 (point - 1) then none
        else some (sign ++ scientificText digits (point - 1))

end Rue.Air.ExactDecimal
