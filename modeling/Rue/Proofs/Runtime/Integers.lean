import Mathlib
import Rue.Lib.Decimal
import Rue.Runtime.Integers

/-! Decimal text and machine integers: what is recognized, and that what is
written is read back. -/

namespace Rue.Proofs.Runtime
open Rue.Runtime Rue.Runtime.Integers Rue.Lib Rue.Lib.Decimal

namespace Integers

theorem isAsciiDigit_eq (byte : UInt8) : isAsciiDigit byte = isDigit byte := rfl

theorem i64_ok {v : Int} (low : i64Min ≤ v) (high : v ≤ i64Max) : i64 v = .ok v := if_pos ⟨low, high⟩

theorem u64_ok {v : Nat} (high : v ≤ u64Max) : u64 v = .ok v := if_pos high

/-! Parsing. A number is held in its own way, up to the largest magnitude. -/

/-- A digit is put behind a number exactly when the number stays within the limit. -/
def Pushes {V : Type} (push : V → Nat → Except Trap (Option V)) (held : Nat → V) (limit : Nat) : Prop :=
  ∀ n d, n ≤ limit → d < 10 → push (held n) d = .ok (if n * 10 + d ≤ limit then some (held (n * 10 + d)) else none)

theorem pushNegative_pushes : Pushes pushNegative (fun n => -(n : Int)) (2 ^ 63) := by
  intro n d within small
  have tenth : i64Min.tdiv 10 = -922337203685477580 := by decide
  have least : i64Min = -9223372036854775808 := by decide
  have most : i64Max = 9223372036854775807 := by decide
  dsimp only
  rw [pushNegative, tenth]
  split
  next big => rw [if_neg (by omega)]
  next fits =>
    rw [i64_ok (by omega) (by omega), Trap.ok_bind, i64_ok (by omega) (by omega), Trap.ok_bind]
    split
    next big => rw [if_neg (by omega), Trap.pure_eq]
    next fits =>
      have same : -(n : Int) * 10 - d = -(n * 10 + d : Nat) := by omega
      rw [i64_ok (by omega) (by omega), Trap.ok_bind, if_pos (by omega), Trap.pure_eq, same]

theorem pushPositive_pushes : Pushes pushPositive (fun n => (n : Int)) (2 ^ 63 - 1) := by
  intro n d within small
  have tenth : i64Max.tdiv 10 = 922337203685477580 := by decide
  have least : i64Min = -9223372036854775808 := by decide
  have most : i64Max = 9223372036854775807 := by decide
  dsimp only
  rw [pushPositive, tenth]
  split
  next big => rw [if_neg (by omega)]
  next fits =>
    rw [i64_ok (by omega) (by omega), Trap.ok_bind, i64_ok (by omega) (by omega), Trap.ok_bind]
    split
    next big => rw [if_neg (by omega), Trap.pure_eq]
    next fits =>
      have same : (n : Int) * 10 + d = (n * 10 + d : Nat) := by omega
      rw [i64_ok (by omega) (by omega), Trap.ok_bind, if_pos (by omega), Trap.pure_eq, same]

theorem pushUnsigned_pushes : Pushes pushUnsigned (fun n => n) (2 ^ 64 - 1) := by
  intro n d within small
  have most : u64Max = 18446744073709551615 := by decide
  dsimp only
  rw [pushUnsigned]
  split
  next big => rw [if_neg (by omega)]
  next fits =>
    rw [u64_ok (by omega), Trap.ok_bind]
    split
    next big => rw [if_neg (by omega), Trap.pure_eq]
    next fits => rw [u64_ok (by omega), Trap.ok_bind, if_pos (by omega), Trap.pure_eq]

section Digits
variable {V : Type} {push : V → Nat → Except Trap (Option V)} {held : Nat → V} {limit : Nat}

theorem parseDigits_answers (pushes : Pushes push held limit) {bytes : List UInt8} {n : Nat} (within : n ≤ limit) :
    parseDigits push bytes (held n) =
      .ok (if (∀ b ∈ bytes, isDigit b) ∧ accumulate n bytes ≤ limit then some (held (accumulate n bytes)) else none) := by
  induction bytes generalizing n with
  | nil => rw [parseDigits, if_pos ⟨fun b member => absurd member List.not_mem_nil, within⟩]; rfl
  | cons byte rest ih =>
    have step : accumulate n (byte :: rest) = accumulate (n * 10 + digit byte) rest := rfl
    rw [parseDigits, isAsciiDigit_eq]
    cases one : isDigit byte with
    | false =>
      have foreign : ¬((∀ b ∈ byte :: rest, isDigit b) ∧ accumulate n (byte :: rest) ≤ limit) := by
        rintro ⟨digits, -⟩
        rw [digits byte List.mem_cons_self] at one
        cases one
      rw [if_neg foreign]
      rfl
    | true =>
      have pushed := pushes n (digit byte) within (digit_lt one)
      rw [← digit, pushed, step]
      by_cases fits : n * 10 + digit byte ≤ limit
      · rw [if_pos fits]
        have further := ih fits
        simp only [Bool.not_true, Bool.false_eq_true, if_false, Trap.ok_bind, List.forall_mem_cons, one, true_and]
        exact further
      · have large : ¬((∀ b ∈ byte :: rest, isDigit b) ∧ accumulate (n * 10 + digit byte) rest ≤ limit) := by
          rintro ⟨-, small⟩
          exact fits (Nat.le_trans (le_accumulate _ _) small)
        rw [if_neg fits, if_neg large]
        rfl

theorem parseDigits_recognizes (pushes : Pushes push held limit) {bytes : List UInt8} (some : bytes ≠ []) :
    ∃ answer, parseDigits push bytes (held 0) = .ok answer ∧
      ∀ v, answer = .some v ↔ ∃ n, v = held n ∧ Denotes bytes n ∧ n ≤ limit := by
  refine ⟨_, parseDigits_answers pushes (Nat.zero_le _), fun v => ⟨fun same => ?_, ?_⟩⟩
  · split at same
    next fine =>
      obtain ⟨digits, small⟩ := fine
      exact ⟨_, (Option.some.inj same).symm, ⟨some, digits, rfl⟩, small⟩
    next => cases same
  · rintro ⟨n, rfl, ⟨-, digits, rfl⟩, small⟩
    rw [if_pos ⟨digits, small⟩]

end Digits

/-- A parser never stops on the way, and answers exactly the numbers that the
text denotes and the type holds. -/
def Recognizes {V : Type} (parse : List UInt8 → Except Trap (Option V)) (denotes : List UInt8 → V → Prop) (holds : V → Prop) :
    Prop :=
  ∀ bytes, ∃ answer, parse bytes = .ok answer ∧ ∀ v, answer = some v ↔ denotes bytes v ∧ holds v

theorem denotes_nil {n : Nat} : ¬Denotes [] n := fun denotes => denotes.1 rfl

theorem denotes_minus {rest : List UInt8} {n : Nat} : ¬Denotes (minus :: rest) n :=
  fun denotes => minus_not_digit (denotes.2.1 minus List.mem_cons_self)

theorem denotesInt_nil {v : Int} : ¬DenotesInt [] v := by
  rintro (⟨n, -, denotes⟩ | ⟨n, rest, -, same, -⟩)
  · exact denotes_nil denotes
  · cases same

theorem denotesInt_minus {rest : List UInt8} {v : Int} :
    DenotesInt (minus :: rest) v ↔ ∃ n : Nat, v = -n ∧ Denotes rest n := by
  constructor
  · rintro (⟨n, -, denotes⟩ | ⟨n, rest', sign, same, denotes⟩)
    · exact absurd denotes denotes_minus
    · cases same
      exact ⟨n, sign, denotes⟩
  · rintro ⟨n, sign, denotes⟩
    exact .inr ⟨n, rest, sign, rfl, denotes⟩

theorem denotesInt_plain {first : UInt8} {rest : List UInt8} {v : Int} (plain : first ≠ minus) :
    DenotesInt (first :: rest) v ↔ ∃ n : Nat, v = n ∧ Denotes (first :: rest) n := by
  constructor
  · rintro (found | ⟨n, rest', -, same, -⟩)
    · exact found
    · cases same
      exact absurd rfl plain
  · exact .inl

theorem parseI64Checked_recognizes : Recognizes parseI64Checked DenotesInt fun v => -2 ^ 63 ≤ v ∧ v < 2 ^ 63 := by
  intro bytes
  rw [parseI64Checked.eq_def]
  cases bytes with
  | nil => exact ⟨none, rfl, fun v => ⟨nofun, fun found => absurd found.1 denotesInt_nil⟩⟩
  | cons first rest =>
    dsimp only
    split
    next negative =>
      have lead : first = minus := negative
      subst lead
      split
      next empty =>
        refine ⟨none, rfl, fun v => ⟨nofun, fun found => ?_⟩⟩
        obtain ⟨n, -, denotes⟩ := denotesInt_minus.mp found.1
        rw [empty] at denotes
        exact absurd denotes denotes_nil
      next more =>
        obtain ⟨answer, done, means⟩ := parseDigits_recognizes pushNegative_pushes more
        refine ⟨answer, done, fun v => (means v).trans ?_⟩
        rw [denotesInt_minus]
        constructor
        · rintro ⟨n, rfl, denotes, small⟩
          exact ⟨⟨n, rfl, denotes⟩, by omega, by omega⟩
        · rintro ⟨⟨n, rfl, denotes⟩, low, -⟩
          exact ⟨n, rfl, denotes, by omega⟩
    next positive =>
      obtain ⟨answer, done, means⟩ := parseDigits_recognizes pushPositive_pushes
        (List.cons_ne_nil first rest)
      refine ⟨answer, done, fun v => (means v).trans ?_⟩
      rw [denotesInt_plain positive]
      constructor
      · rintro ⟨n, rfl, denotes, small⟩
        exact ⟨⟨n, rfl, denotes⟩, by omega, by omega⟩
      · rintro ⟨⟨n, rfl, denotes⟩, -, high⟩
        exact ⟨n, rfl, denotes, by omega⟩

theorem parseU64Checked_recognizes : Recognizes parseU64Checked Denotes fun v => v < 2 ^ 64 := by
  intro bytes
  rw [parseU64Checked.eq_def]
  cases bytes with
  | nil => exact ⟨none, rfl, fun v => ⟨nofun, fun found => absurd found.1 denotes_nil⟩⟩
  | cons first rest =>
    dsimp only
    split
    next negative =>
      have lead : first = minus := negative
      subst lead
      exact ⟨none, rfl, fun v => ⟨nofun, fun found => absurd found.1 denotes_minus⟩⟩
    next =>
      obtain ⟨answer, done, means⟩ := parseDigits_recognizes pushUnsigned_pushes
        (List.cons_ne_nil first rest)
      refine ⟨answer, done, fun v => (means v).trans ?_⟩
      constructor
      · rintro ⟨n, rfl, denotes, small⟩
        exact ⟨denotes, by omega⟩
      · rintro ⟨denotes, small⟩
        exact ⟨v, rfl, denotes, by omega⟩

theorem Recognizes.within {V : Type} {parse narrow : List UInt8 → Except Trap (Option V)} {denotes : List UInt8 → V → Prop}
    {holds fits : V → Prop} (recognizes : Recognizes parse denotes holds) (part : ∀ v, fits v → holds v)
    (none' : ∀ bytes, parse bytes = .ok none → narrow bytes = .ok none)
    (some' : ∀ bytes v, parse bytes = .ok (some v) → holds v →
      ∃ answer, narrow bytes = .ok answer ∧ ∀ w, answer = some w ↔ w = v ∧ fits v) :
    Recognizes narrow denotes fits := by
  intro bytes
  obtain ⟨answer, done, means⟩ := recognizes bytes
  cases answer with
  | none =>
    refine ⟨none, none' bytes done, fun v => ⟨nofun, fun found => ?_⟩⟩
    exact (means v).mpr ⟨found.1, part v found.2⟩
  | some v =>
    obtain ⟨denoted, held⟩ := (means v).mp rfl
    obtain ⟨answer, done', means'⟩ := some' bytes v done held
    refine ⟨answer, done', fun w => (means' w).trans ⟨?_, ?_⟩⟩
    · rintro ⟨rfl, small⟩
      exact ⟨denoted, small⟩
    · rintro ⟨denoted', small⟩
      have same := Option.some.inj ((means w).mpr ⟨denoted', part w small⟩)
      exact ⟨same.symm, same ▸ small⟩

theorem parseI32Checked_recognizes : Recognizes parseI32Checked DenotesInt fun v => -2 ^ 31 ≤ v ∧ v < 2 ^ 31 := by
  refine parseI64Checked_recognizes.within (fun v small => by omega) (fun bytes done => ?_) fun bytes v done held => ?_
  · rw [parseI32Checked, done]
    rfl
  · rw [parseI32Checked, done, Trap.ok_bind]
    dsimp only
    split
    next outside => exact ⟨none, rfl, fun w => ⟨nofun, fun found => absurd found.2 (by omega)⟩⟩
    next inside =>
      refine ⟨some v, ?_, fun w => ⟨fun same => ⟨(Option.some.inj same).symm, by omega⟩, fun found => by rw [found.1]⟩⟩
      rw [Int.bmod_eq_of_le (by omega) (by omega)]
      rfl

theorem parseU32Checked_recognizes : Recognizes parseU32Checked Denotes fun v => v < 2 ^ 32 := by
  refine parseU64Checked_recognizes.within (fun v small => by omega) (fun bytes done => ?_) fun bytes v done held => ?_
  · rw [parseU32Checked, done]
    rfl
  · rw [parseU32Checked, done, Trap.ok_bind]
    dsimp only
    split
    next outside => exact ⟨none, rfl, fun w => ⟨nofun, fun found => absurd found.2 (by omega)⟩⟩
    next inside =>
      refine ⟨some v, ?_, fun w => ⟨fun same => ⟨(Option.some.inj same).symm, by omega⟩, fun found => by rw [found.1]⟩⟩
      rw [Nat.mod_eq_of_lt (by omega)]
      rfl

/-! Formatting. What is written stands between the place and the end of the buffer. -/

section Writing
variable {buf : List UInt8} {i mag : Nat}

theorem put_answers (byte : UInt8) (positive : 0 < i) (inside : i ≤ buf.length) :
    put buf i byte = .ok (buf.set (i - 1) byte, i - 1) ∧ (buf.set (i - 1) byte).drop (i - 1) = byte :: buf.drop i := by
  refine ⟨by rw [put, if_neg (Nat.ne_of_gt positive), if_pos (by omega)], ?_⟩
  have place : i - 1 < (buf.set (i - 1) byte).length := by
    rw [List.length_set]
    omega
  rw [List.drop_eq_getElem_cons place, List.getElem_set_self, Nat.sub_add_cancel positive, List.drop_set_of_lt (by omega)]

theorem ascii_digit (d : Nat) : 48 + UInt8.ofNat d = ofDigit d := by
  rw [ofDigit, UInt8.ofNat_add]
  rfl

theorem putDigits_answers {fuel : Nat} (fits : mag < 10 ^ i) (inside : i ≤ buf.length) (enough : i < fuel) :
    ∃ buf' i', putDigits fuel buf i mag = .ok (buf', i') ∧ buf'.length = buf.length ∧ i' ≤ i ∧
      buf'.drop i' = numerals mag ++ buf.drop i := by
  induction fuel generalizing buf i mag with
  | zero => omega
  | succ fuel ih =>
    rw [putDigits]
    split
    next more =>
      have positive : 0 < i := by
        rcases Nat.eq_zero_or_pos i with none | some
        · rw [none] at fits
          omega
        · exact some
      obtain ⟨written, placed⟩ := put_answers (ofDigit (mag % 10)) positive inside
      have tenth : mag / 10 < 10 ^ (i - 1) := by
        rw [Nat.div_lt_iff_lt_mul (by decide), ← pow_succ, Nat.sub_add_cancel positive]
        exact fits
      obtain ⟨buf', i', done, length, before, text⟩ := @ih (buf.set (i - 1) (ofDigit (mag % 10))) (i - 1) (mag / 10) tenth
        (by rw [List.length_set]; omega) (by omega)
      refine ⟨buf', i', ?_, length.trans List.length_set, by omega, ?_⟩
      · rw [ascii_digit, written, Trap.ok_bind]
        exact done
      · rw [text, placed, numerals_step more, List.append_assoc, List.singleton_append]
    next none =>
      have zero : mag = 0 := by omega
      subst zero
      exact ⟨buf, i, rfl, rfl, Nat.le_refl i, rfl⟩

theorem putMagnitude_answers (positive : 0 < i) (fits : mag < 10 ^ i) (inside : i ≤ buf.length) :
    ∃ buf' i', putMagnitude buf i mag = .ok (buf', i') ∧ buf'.length = buf.length ∧ i' ≤ i ∧
      buf'.drop i' = spelling mag ++ buf.drop i := by
  rw [putMagnitude, spelling]
  split
  next zero =>
    obtain ⟨written, placed⟩ := put_answers 48 positive inside
    exact ⟨_, _, written, List.length_set, Nat.sub_le _ _, placed⟩
  next some => exact putDigits_answers fits inside (by omega)

end Writing

/-- A call that prints a value stops only for want of memory. The text is the one
spelling of the value, fits twenty bytes and its allocation, and is read back. -/
def Prints {V : Type} (print : (room : Bool) → Except Trap StrBufResult) (spells : List UInt8 → Prop)
    (parse : List UInt8 → Except Trap (Option V)) (v : V) : Prop :=
  print false = .error .outOfMemory ∧
    ∃ text, print true = .ok text ∧ spells text.bytes ∧ (∀ other, spells other → other = text.bytes) ∧
      text.bytes.length ≤ 20 ∧ text.bytes.length ≤ text.cap ∧ parse text.bytes = .ok (some v)

section Printing
variable {V : Type} {print : Bool → Except Trap StrBufResult} {spells : List UInt8 → Prop}
  {parse : List UInt8 → Except Trap (Option V)} {v : V}

theorem prints_of_written {buf : List UInt8} {i : Nat} (written : ∀ room, print room = allocated room buf i)
    (length : buf.length = 20) (spelled : spells (buf.drop i)) (unique : ∀ other, spells other → other = buf.drop i)
    (read : parse (buf.drop i) = .ok (some v)) : Prints print spells parse v := by
  refine ⟨written false, ⟨buf.drop i, _⟩, written true, spelled, unique, ?_, ?_, read⟩
  · rw [List.length_drop]
    omega
  · rw [List.length_drop]
    change buf.length - i ≤ if buf.length - i < stringMinCapacity then stringMinCapacity else buf.length - i
    split <;> omega

theorem Recognizes.read {denotes : List UInt8 → V → Prop} {holds : V → Prop} (recognizes : Recognizes parse denotes holds)
    {bytes : List UInt8} (denoted : denotes bytes v) (held : holds v) : parse bytes = .ok (some v) := by
  obtain ⟨answer, done, means⟩ := recognizes bytes
  rw [done, (means v).mpr ⟨denoted, held⟩]

end Printing

theorem rueToStringUnsigned_prints (n : BitVec 64) :
    Prints (fun room => rueToStringUnsigned room n) (fun bytes => Spells bytes n.toNat) parseU64Checked n.toNat := by
  obtain ⟨buf, i, done, length, -, text⟩ := @putMagnitude_answers (List.replicate 20 0) 20 n.toNat (by decide)
    (Nat.lt_trans n.isLt (by decide)) (Nat.le_refl _)
  have whole : buf.drop i = spelling n.toNat := text.trans (List.append_nil _)
  refine @prints_of_written _ _ _ _ _ buf i (fun room => ?_) length ?_ (fun other spelled => ?_) ?_
  · rw [rueToStringUnsigned, done, Trap.ok_bind]
  · rw [whole]
    exact spelling_spells _
  · rw [whole]
    exact spelled.eq
  · rw [whole]
    exact parseU64Checked_recognizes.read (spelling_spells _).denotes n.isLt

theorem magnitude_eq (n : BitVec 64) : (if n.slt 0 then -n else n).toNat = n.toInt.natAbs := by
  have value := BitVec.toInt_eq_toNat_cond n
  have small := n.isLt
  by_cases negative : n.slt 0
  · have below : n.toInt < 0 := BitVec.slt_iff_toInt_lt.mp negative
    rw [if_pos negative, BitVec.toNat_neg]
    split at value <;> omega
  · have above : ¬n.toInt < 0 := fun below => negative (BitVec.slt_iff_toInt_lt.mpr below)
    rw [if_neg negative]
    split at value <;> omega

theorem rueToString_prints (n : BitVec 64) :
    Prints (fun room => rueToString room n) (fun bytes => SpellsInt bytes n.toInt) parseI64Checked n.toInt := by
  have low := BitVec.le_toInt n
  have high := BitVec.toInt_lt (x := n)
  have fits : n.toInt.natAbs < 10 ^ 19 := by omega
  obtain ⟨buf, i, done, length, before, text⟩ := @putMagnitude_answers (List.replicate 20 0) 20 n.toInt.natAbs (by decide)
    (Nat.lt_trans fits (by decide)) (Nat.le_refl _)
  have whole : buf.drop i = spelling n.toInt.natAbs := text.trans (List.append_nil _)
  have spells := spelling_spells n.toInt.natAbs
  by_cases negative : n.slt 0
  · have below : n.toInt < 0 := BitVec.slt_iff_toInt_lt.mp negative
    have first : 0 < i := by
      have count := congrArg List.length whole
      have short := length_spelling (by decide) fits
      rw [List.length_drop, length] at count
      rw [List.length_replicate] at count
      omega
    have inside : i ≤ buf.length := by
      rw [length, List.length_replicate]
      assumption
    obtain ⟨written, placed⟩ := put_answers 45 first inside
    have signed : SpellsInt (minus :: buf.drop i) n.toInt := .inr ⟨below, _, rfl, whole ▸ spells⟩
    have same : (buf.set (i - 1) 45).drop (i - 1) = minus :: buf.drop i := placed
    refine @prints_of_written _ _ _ _ _ (buf.set (i - 1) 45) (i - 1) (fun room => ?_) ?_ ?_ (fun other spelled => ?_) ?_
    · rw [rueToString]
      dsimp only
      rw [magnitude_eq, done, Trap.ok_bind]
      dsimp only
      rw [if_pos negative, written, Trap.ok_bind]
    · exact List.length_set.trans length
    · rw [same]
      exact signed
    · rw [same]
      exact spelled.unique signed
    · rw [same]
      exact parseI64Checked_recognizes.read signed.denotes ⟨by omega, by omega⟩
  · have above : 0 ≤ n.toInt := Int.not_lt.mp fun below => negative (BitVec.slt_iff_toInt_lt.mpr below)
    have plain : SpellsInt (buf.drop i) n.toInt := .inl ⟨above, whole ▸ spells⟩
    refine @prints_of_written _ _ _ _ _ buf i (fun room => ?_) length plain (fun other spelled => spelled.unique plain) ?_
    · rw [rueToString]
      dsimp only
      rw [magnitude_eq, done, Trap.ok_bind]
      dsimp only
      rw [if_neg negative]
    · exact parseI64Checked_recognizes.read plain.denotes ⟨by omega, by omega⟩

/-- Parsing answers exactly the numbers that are denoted and fit, and printing
writes the spelling that is read back. -/
theorem integers_sound :
    (Recognizes parseI64Checked DenotesInt (fun v => -2 ^ 63 ≤ v ∧ v < 2 ^ 63) ∧
      Recognizes parseU64Checked Denotes (fun v => v < 2 ^ 64) ∧
      Recognizes parseI32Checked DenotesInt (fun v => -2 ^ 31 ≤ v ∧ v < 2 ^ 31) ∧
      Recognizes parseU32Checked Denotes (fun v => v < 2 ^ 32)) ∧
    (∀ n : BitVec 64, Prints (fun room => rueToString room n) (fun bytes => SpellsInt bytes n.toInt) parseI64Checked n.toInt) ∧
    ∀ n : BitVec 64,
      Prints (fun room => rueToStringUnsigned room n) (fun bytes => Spells bytes n.toNat) parseU64Checked n.toNat :=
  ⟨⟨parseI64Checked_recognizes, parseU64Checked_recognizes, parseI32Checked_recognizes, parseU32Checked_recognizes⟩,
    rueToString_prints, rueToStringUnsigned_prints⟩

end Integers

end Rue.Proofs.Runtime
