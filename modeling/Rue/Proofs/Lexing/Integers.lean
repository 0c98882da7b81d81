import Rue.Proofs.Lexing.Literals

/-! Integer literals: the value parsed is that of the digits, and overflow is
reported exactly when that value has no place. -/

namespace Rue.Proofs.Lexing
open Rue.Lib Rue.Lexing

/-- The digits of a text, without its separators. -/
def digitsOf (radix : Nat) (text : List Char) : List Nat := (text.filter (· ≠ '_')).filterMap (toDigit radix)

/-- The number a text's digits write, the first of them the highest. -/
def literalValue (radix : Nat) (text : List Char) : Nat := Nat.ofDigits radix (digitsOf radix text).reverse

def readOn (radix value : Nat) (text : List Char) : Nat := value * radix ^ (digitsOf radix text).length + literalValue radix text

/-- A separator, or a digit of the base. -/
def isNumeral (radix : Nat) (c : Char) : Bool := c = '_' || (toDigit radix c).isSome

section Digits

variable {radix value digit : Nat} {c : Char} {rest : List Char}

theorem digitsOf_separator : digitsOf radix ('_' :: rest) = digitsOf radix rest := by
  simp [digitsOf]

theorem digitsOf_digit (other : c ≠ '_') (known : toDigit radix c = some digit) :
    digitsOf radix (c :: rest) = digit :: digitsOf radix rest := by
  simp [digitsOf, other, known]

theorem readOn_nil : readOn radix value [] = value := by
  simp [readOn, literalValue, digitsOf]

theorem readOn_separator : readOn radix value ('_' :: rest) = readOn radix value rest := by
  rw [readOn, literalValue, digitsOf_separator, readOn, literalValue]

theorem readOn_digit (other : c ≠ '_') (known : toDigit radix c = some digit) :
    readOn radix value (c :: rest) = readOn radix (value * radix + digit) rest := by
  rw [readOn, literalValue, digitsOf_digit other known, readOn, literalValue, List.reverse_cons, Nat.ofDigits_append,
    List.length_reverse, List.length_cons, Nat.ofDigits_singleton]
  ring

theorem le_readOn (positive : 0 < radix) : value ≤ readOn radix value rest :=
  Nat.le_trans (Nat.le_mul_of_pos_right value (Nat.pow_pos positive)) (Nat.le_add_right _ _)

theorem readOn_zero : readOn radix 0 rest = literalValue radix rest := by
  rw [readOn, Nat.zero_mul, Nat.zero_add]

/-- One more digit, as the checked operations take it. -/
theorem push_eq (bounded : value * radix + digit ≤ u64Max) :
    ((checkedMul value radix).bind fun shifted => checkedAdd shifted digit) = some (value * radix + digit) := by
  rw [checkedMul, if_pos (by omega), Option.bind_some, checkedAdd, if_pos bounded]

theorem push_none (beyond : u64Max < value * radix + digit) :
    ((checkedMul value radix).bind fun shifted => checkedAdd shifted digit) = none := by
  rw [checkedMul]
  split
  · rw [Option.bind_some, checkedAdd, if_neg (by omega)]
  · rfl

end Digits

theorem toDigit_decimal {c : Char} (digit : c.isDigit) : ∃ value, toDigit 10 c = some value := by
  simp only [toDigit, digit, if_true]
  simp only [Char.isDigit, Bool.and_eq_true, decide_eq_true_eq] at digit
  obtain ⟨low, high⟩ := digit
  have above : 48 ≤ c.toNat := low
  have below : c.toNat ≤ 57 := high
  refine ⟨c.toNat - 48, ?_⟩
  rw [Option.filter_some, if_pos]
  · rfl
  · have zero : '0'.toNat = 48 := rfl
    simp only [decide_eq_true_eq]
    omega

theorem parseDecimalDigits_eq {text : List Char} (digits : ∀ c ∈ text, isDigitOrSeparator c) (value : Nat)
    (bounded : value ≤ u64Max) : parseDecimalDigits text value =
      some (if readOn 10 value text ≤ u64Max then .ok (readOn 10 value text) else .error .invalidInteger) := by
  induction text generalizing value with
  | nil => rw [readOn_nil, if_pos bounded, parseDecimalDigits]
  | cons c rest ih =>
    have later : ∀ c ∈ rest, isDigitOrSeparator c := fun c listed => digits c (List.mem_cons_of_mem _ listed)
    rw [parseDecimalDigits]
    split
    next separator =>
      subst separator
      rw [readOn_separator]
      exact ih later value bounded
    next other =>
      have isDigit : c.isDigit := by
        have first := digits c List.mem_cons_self
        simpa [isDigitOrSeparator, other] using first
      obtain ⟨digit, known⟩ := toDigit_decimal isDigit
      rw [known, readOn_digit other known]
      simp only [Option.bind_eq_bind, Option.bind_some]
      by_cases small : value * 10 + digit ≤ u64Max
      · rw [push_eq small]
        exact ih later _ small
      · rw [push_none (by omega), if_neg]
        have grows := @le_readOn 10 (value * 10 + digit) rest (by omega)
        omega

/-- A decimal literal: its value, or the report that it has no place. -/
theorem parseDecimalLiteral_eq {text : List Char} (digits : ∀ c ∈ text, isDigitOrSeparator c) :
    parseDecimalLiteral text =
      some (if literalValue 10 text ≤ u64Max then .ok (literalValue 10 text) else .error .invalidInteger) := by
  rw [parseDecimalLiteral, parseDecimalDigits_eq digits 0 (Nat.zero_le _), readOn_zero]

/-- What the digits of a based literal come to: those before the first that is
none of the base are read, and the first failure is reported. -/
def basedOutcome (base : String) (radix : Nat) (text : List Char) (offset value : Nat) (seenDigit : Bool) :
    Except LexError Nat :=
  let numerals := text.takeWhile (isNumeral radix)
  if u64Max < readOn radix value numerals then .error .invalidInteger
  else
    match text.dropWhile (isNumeral radix) with
    | c :: _ => .error (.invalidDigitForBase c base (offset + utf8Len numerals))
    | [] =>
      if seenDigit || !(digitsOf radix numerals).isEmpty then .ok (readOn radix value numerals)
      else .error (.emptyBasedLiteral base)

theorem parseBasedDigits_eq (base : String) {radix : Nat} (positive : 0 < radix) {text : List Char} {offset value : Nat}
    (seenDigit : Bool) (fits : offset + utf8Len text < 2 ^ 32) (bounded : value ≤ u64Max) :
    parseBasedDigits base radix text offset value seenDigit = some (basedOutcome base radix text offset value seenDigit) := by
  induction text generalizing offset value seenDigit with
  | nil => simp [parseBasedDigits, basedOutcome, readOn_nil, bounded, digitsOf]
  | cons c rest ih =>
    rw [utf8Len_cons] at fits
    rw [parseBasedDigits]
    split
    next separator =>
      subst separator
      have numeral : isNumeral radix '_' = true := rfl
      rw [ih seenDigit (by omega) bounded, basedOutcome, basedOutcome, List.takeWhile_cons_of_pos numeral,
        List.dropWhile_cons_of_pos numeral, readOn_separator, digitsOf_separator, utf8Len_cons, Nat.add_assoc]
    next other =>
      rw [spanOffset_of_lt (by omega)]
      simp only [Option.bind_eq_bind, Option.bind_some]
      cases known : toDigit radix c with
      | none =>
        have stops : ¬ isNumeral radix c = true := by simp [isNumeral, other, known]
        simp [basedOutcome, List.takeWhile_cons_of_neg stops, List.dropWhile_cons_of_neg stops, readOn_nil, bounded]
      | some digit =>
        have numeral : isNumeral radix c = true := by simp [isNumeral, known]
        have shape : basedOutcome base radix (c :: rest) offset value seenDigit =
            basedOutcome base radix rest (offset + c.utf8Size) (value * radix + digit) true := by
          rw [basedOutcome, basedOutcome, List.takeWhile_cons_of_pos numeral, List.dropWhile_cons_of_pos numeral,
            readOn_digit other known, digitsOf_digit other known, utf8Len_cons, Nat.add_assoc]
          simp
        rw [shape]
        dsimp only
        by_cases small : value * radix + digit ≤ u64Max
        · rw [push_eq small]
          exact ih true (by omega) small
        · have grows := @le_readOn radix (value * radix + digit) (rest.takeWhile (isNumeral radix)) positive
          rw [push_none (by omega), basedOutcome, if_pos (by omega)]

section Based

variable {base : String} {radix offset value : Nat} {text : List Char}

theorem basedOutcome_numerals (numerals : ∀ c ∈ text, isNumeral radix c) :
    basedOutcome base radix text offset 0 false =
      if u64Max < literalValue radix text then .error .invalidInteger
      else if (digitsOf radix text).isEmpty then .error (.emptyBasedLiteral base)
      else .ok (literalValue radix text) := by
  have all : text.takeWhile (isNumeral radix) = text := List.takeWhile_eq_self_iff.mpr numerals
  have none : text.dropWhile (isNumeral radix) = [] := List.dropWhile_eq_nil_iff.mpr numerals
  rw [basedOutcome, all, none, readOn_zero]
  split
  · rfl
  · cases (digitsOf radix text).isEmpty <;> rfl

/-- An error of overflow concerns the digits before any that is none of the base. -/
theorem basedOutcome_overflow (overflows : basedOutcome base radix text offset 0 false = .error .invalidInteger) :
    u64Max < literalValue radix (text.takeWhile (isNumeral radix)) := by
  rw [basedOutcome, readOn_zero] at overflows
  split at overflows
  next beyond => exact beyond
  next =>
    split at overflows
    · cases overflows
    · split at overflows <;> cases overflows

theorem basedOutcome_ok (fine : basedOutcome base radix text offset 0 false = .ok value) :
    (∀ c ∈ text, isNumeral radix c) ∧ value = literalValue radix text ∧ value ≤ u64Max := by
  rw [basedOutcome] at fine
  split at fine
  next => cases fine
  next bounded =>
    split at fine
    · cases fine
    next none =>
      have numerals := List.dropWhile_eq_nil_iff.mp none
      rw [List.takeWhile_eq_self_iff.mpr numerals, readOn_zero] at fine bounded
      split at fine
      · cases fine
        exact ⟨numerals, rfl, by omega⟩
      · cases fine

theorem baseOf_radix {c : Char} (known : baseOf c = some (base, radix)) : 0 < radix := by
  unfold baseOf at known
  split at known
  all_goals cases known
  all_goals decide

/-- A based literal: an upper-case marker is refused, else its digits are read. -/
theorem parseBasedLiteral_eq {slice : List Char} (matched : basedPattern.Matches slice)
    (fits : utf8Len slice < 2 ^ 32) : ∃ marker digits base radix, slice = '0' :: marker :: digits ∧
      baseOf marker.toLower = some (base, radix) ∧ parseBasedLiteral slice =
        some (if marker.isUpper then .error (.uppercaseBasePrefix marker)
          else basedOutcome base radix digits 2 0 false) := by
  obtain ⟨zero, rest, rfl, one, after⟩ := Regex.matches_chain.mp matched
  obtain ⟨first, rfl, isZero⟩ := Regex.matches_one.mp one
  obtain ⟨mark, digits, rfl, marked, -⟩ := Regex.matches_chain.mp after
  obtain ⟨marker, rfl, listed⟩ := Regex.matches_one.mp marked
  obtain rfl : first = '0' := by simpa using isZero
  obtain ⟨base, radix, known, size⟩ : ∃ base radix, baseOf marker.toLower = some (base, radix) ∧ marker.utf8Size = 1 := by
    simp only [List.mem_cons, List.not_mem_nil, or_false, decide_eq_true_eq] at listed
    rcases listed with rfl | rfl | rfl | rfl | rfl | rfl
    all_goals exact ⟨_, _, rfl, rfl⟩
  refine ⟨marker, digits, base, radix, rfl, known, ?_⟩
  have cut : splitBytes (['0'] ++ ([marker] ++ digits)) 2 = some (['0', marker], digits) := by
    have length : 2 = utf8Len ['0', marker] := by
      rw [utf8Len_cons, utf8Len_cons, size]
      rfl
    rw [length]
    exact splitBytes_append ['0', marker] digits
  have short : 2 + utf8Len digits < 2 ^ 32 := by
    have zero : Char.utf8Size '0' = 1 := rfl
    simp only [utf8Len_append, utf8Len_cons, utf8Len_nil, zero, size] at fits
    omega
  rw [parseBasedLiteral, cut]
  simp only [List.singleton_append, List.getElem?_cons_succ, List.getElem?_cons_zero, Option.bind_eq_bind,
    Option.bind_some, known]
  split
  · rfl
  · exact parseBasedDigits_eq base (baseOf_radix known) false short (Nat.zero_le _)

end Based

/-- A decimal literal consists of digits and separators. -/
theorem digitRun_matches {slice : List Char} (matched : digitRun.Matches slice) :
    (∀ c ∈ slice, isDigitOrSeparator c) := by
  obtain ⟨head, tail, rfl, first, rest⟩ := Regex.matches_chain.mp matched
  obtain ⟨digit, rfl, isDigit⟩ := Regex.matches_one.mp first
  intro c listed
  rcases List.mem_cons.mp listed with rfl | later
  · simp [isDigitOrSeparator, isDigit]
  · exact Regex.matches_many_one.mp rest c later

end Rue.Proofs.Lexing
