import Mathlib.Algebra.Field.Rat
import Mathlib.Data.List.TakeWhile
import Mathlib.Tactic.FieldSimp
import Mathlib.Tactic.NormNum
import Mathlib.Tactic.Ring
import Mathlib.Tactic.WLOG
import Rue.Proofs.Air.DecimalArithmetic

/-! The canonical text of a decimal literal has its value, is the only one with that
value, and is displayed in a notation of the same value. -/

namespace Rue.Proofs.Air.ExactDecimal
open Rue.Lib.Decimal Rue.Air.ExactDecimal DecimalArithmetic

/-- Digits, or digits around a point: all of them, and how many stand behind it. -/
inductive Mantissa : Text → Text → Nat → Prop where
  | whole {digits} (some' : digits ≠ []) (all : ∀ byte ∈ digits, isDigit byte) : Mantissa digits digits 0
  | dotted {whole fraction} (some' : whole ≠ []) (all : ∀ byte ∈ whole, isDigit byte)
      (all' : ∀ byte ∈ fraction, isDigit byte) : Mantissa (whole ++ 46 :: fraction) (whole ++ fraction) fraction.length

/-- A decimal literal and its value; an exponent stands behind one of the markers. -/
inductive Literal (markers : List UInt8) : Text → ℚ → Prop where
  | bare {text digits places} (mantissa : Mantissa text digits places) :
      Literal markers text (accumulate 0 digits * 10 ^ (-(places : ℤ)))
  | scaled {text digits places marker exponent k} (mantissa : Mantissa text digits places) (known : marker ∈ markers)
      (shift : Exponent exponent k) :
      Literal markers (text ++ marker :: exponent) (accumulate 0 digits * 10 ^ (k - places))

/-- Zero, or digits without zeros at either end and an exponent without leading zeros. -/
inductive Canonical : Text → Nat → ℤ → Prop where
  | zero : Canonical [48, 101, 48] 0 0
  | nonzero {significand exponent n k} (digits : Denotes significand n) (lead : significand.head? ≠ some 48)
      (last : significand.getLast? ≠ some 48) (shift : SpellsInt exponent k) :
      Canonical (significand ++ 101 :: exponent) n k

theorem splitOnce_absent {marker : UInt8 → Bool} {text : Text} (absent : ∀ byte ∈ text, marker byte = false) :
    splitOnce marker text = none := by
  have empty : (text.dropWhile fun byte => !marker byte) = [] :=
    List.dropWhile_eq_nil_iff.mpr fun byte member => by rw [absent byte member]; rfl
  rw [splitOnce, empty]

theorem splitOnce_found {marker : UInt8 → Bool} {front behind : Text} {byte : UInt8}
    (absent : ∀ byte ∈ front, marker byte = false) (here : marker byte = true) :
    splitOnce marker (front ++ byte :: behind) = some (front, behind) := by
  have skip : ∀ byte ∈ front, (!marker byte) = true := fun byte member => by rw [absent byte member]; rfl
  have stop : (!marker byte) = false := by rw [here]; rfl
  rw [splitOnce, List.dropWhile_append_of_pos skip, List.dropWhile_cons, stop, List.takeWhile_append_of_pos skip,
    List.takeWhile_cons, stop]
  simp

theorem splitOnce_cases (marker : UInt8 → Bool) (text : Text) :
    (splitOnce marker text = none ∧ ∀ byte ∈ text, marker byte = false) ∨
      ∃ front byte behind, text = front ++ byte :: behind ∧ marker byte = true ∧ (∀ byte ∈ front, marker byte = false) ∧
        splitOnce marker text = some (front, behind) := by
  cases later : text.dropWhile fun byte => !marker byte with
  | nil =>
    have absent : ∀ byte ∈ text, marker byte = false := fun byte member => by
      have := List.dropWhile_eq_nil_iff.mp later byte member
      rwa [Bool.not_eq_true'] at this
    exact .inl ⟨splitOnce_absent absent, absent⟩
  | cons byte behind =>
    have here : marker byte = true := by
      have stop := List.head?_dropWhile_not (fun byte => !marker byte) text
      rw [later] at stop
      rwa [← Bool.not_eq_false']
    have whole : text = (text.takeWhile fun byte => !marker byte) ++ byte :: behind := by
      rw [← later, List.takeWhile_append_dropWhile]
    have absent : ∀ byte ∈ text.takeWhile fun byte => !marker byte, marker byte = false := fun byte member => by
      have := List.mem_takeWhile_imp member
      rwa [Bool.not_eq_true'] at this
    refine .inr ⟨_, byte, behind, whole, here, absent, ?_⟩
    rw [splitOnce, later]

def isDot (byte : UInt8) : Bool := byte = 46

def isMarker (byte : UInt8) : Bool := byte = 101 || byte = 69

theorem digit_not_dot {byte : UInt8} (one : isDigit byte) : isDot byte = false := by
  rw [isDot, decide_eq_false_iff_not]
  rintro rfl
  exact absurd one (by decide)

theorem digit_not_marker {byte : UInt8} (one : isDigit byte) : isMarker byte = false := by
  rw [isMarker, Bool.or_eq_false_iff, decide_eq_false_iff_not, decide_eq_false_iff_not]
  constructor <;> rintro rfl <;> exact absurd one (by decide)

theorem Mantissa.unmarked {text digits : Text} {places : Nat} (mantissa : Mantissa text digits places) :
    ∀ byte ∈ text, isMarker byte = false := by
  intro byte member
  cases mantissa with
  | whole _ all => exact digit_not_marker (all byte member)
  | dotted _ all all' =>
    rcases List.mem_append.mp member with before | behind
    · exact digit_not_marker (all byte before)
    · rcases List.mem_cons.mp behind with rfl | behind
      · rfl
      · exact digit_not_marker (all' byte behind)

theorem Mantissa.split {text digits : Text} {places : Nat} (mantissa : Mantissa text digits places) :
    ∃ whole fraction, (splitOnce isDot text).getD (text, []) = (whole, fraction) ∧ whole ≠ [] ∧
      (∀ byte ∈ whole, isDigit byte) ∧ (∀ byte ∈ fraction, isDigit byte) ∧ digits = whole ++ fraction ∧
      places = fraction.length := by
  cases mantissa with
  | whole some' all =>
    refine ⟨text, [], ?_, some', all, nofun, (List.append_nil _).symm, rfl⟩
    rw [splitOnce_absent fun byte member => digit_not_dot (all byte member)]
    rfl
  | @dotted whole fraction some' all all' =>
    refine ⟨whole, fraction, ?_, some', all, all', rfl, rfl⟩
    rw [splitOnce_found (fun byte member => digit_not_dot (all byte member)) rfl]
    rfl

theorem Mantissa.of_split {text whole fraction : Text} (split : (splitOnce isDot text).getD (text, []) = (whole, fraction))
    (some' : whole ≠ []) (all : ∀ byte ∈ whole, isDigit byte) (all' : ∀ byte ∈ fraction, isDigit byte) :
    Mantissa text (whole ++ fraction) fraction.length := by
  rcases splitOnce_cases isDot text with ⟨absent, -⟩ | ⟨front, byte, behind, same, here, -, found⟩
  · rw [absent] at split
    obtain ⟨rfl, rfl⟩ := Prod.mk.inj split
    rw [List.append_nil]
    exact .whole some' all
  · rw [found] at split
    obtain ⟨rfl, rfl⟩ := Prod.mk.inj split
    obtain rfl : byte = 46 := of_decide_eq_true here
    rw [same]
    exact .dotted some' all all'

variable {markers : List UInt8} {text : Text} {v : ℚ}

theorem single_digit {byte : UInt8} (one : isDigit byte) : ∀ other ∈ [byte], isDigit other := by
  rintro other member
  rwa [List.mem_singleton.mp member]

theorem exponent_zero : Exponent [48] 0 := .plain ⟨List.cons_ne_nil _ _, single_digit rfl, rfl⟩

theorem Literal.split (known : ∀ marker ∈ markers, isMarker marker = true) (literal : Literal markers text v) :
    ∃ mantissa digits places exponent k, (splitOnce isMarker text).getD (text, [48]) = (mantissa, exponent) ∧
      Mantissa mantissa digits places ∧ Exponent exponent k ∧ v = accumulate 0 digits * 10 ^ (k - places) := by
  cases literal with
  | @bare _ digits places mantissa =>
    refine ⟨text, digits, places, [48], 0, ?_, mantissa, exponent_zero, by rw [zero_sub]⟩
    rw [splitOnce_absent mantissa.unmarked]
    rfl
  | @scaled front digits places marker exponent k mantissa member shift =>
    refine ⟨front, digits, places, exponent, k, ?_, mantissa, shift, rfl⟩
    rw [splitOnce_found mantissa.unmarked (known marker member)]
    rfl

theorem accumulate_append (front behind : Text) :
    accumulate 0 (front ++ behind) = accumulate 0 front * 10 ^ behind.length + accumulate 0 behind := by
  rw [accumulate, List.foldl_append, ← accumulate, ← accumulate, accumulate_eq, accumulate_eq 0 behind, Nat.zero_mul, Nat.zero_add]

theorem accumulate_zeros (count : Nat) : accumulate 0 (List.replicate count 48) = 0 := by
  induction count with
  | zero => rfl
  | succ count ih =>
    rw [List.replicate_succ, accumulate_cons, ih, show digit 48 = 0 from rfl, Nat.zero_mul]

theorem trailing_split (digits : Text) :
    digits = digits.take (digits.length - (digits.reverse.takeWhile (· = 48)).length) ++
        List.replicate (digits.reverse.takeWhile (· = 48)).length 48 ∧
      (digits.take (digits.length - (digits.reverse.takeWhile (· = 48)).length)).getLast? ≠ some 48 := by
  have cut := List.takeWhile_append_dropWhile (p := (· = 48)) (l := digits.reverse)
  have zeros : digits.reverse.takeWhile (· = 48) = List.replicate (digits.reverse.takeWhile (· = 48)).length 48 :=
    List.eq_replicate_iff.mpr ⟨rfl, fun byte member => by
      exact of_decide_eq_true (List.mem_takeWhile_imp (p := fun byte : UInt8 => decide (byte = 48)) member)⟩
  have stop := List.head?_dropWhile_not (· = 48) digits.reverse
  generalize digits.reverse.takeWhile (· = 48) = taken at cut zeros
  generalize digits.reverse.dropWhile (· = 48) = kept at cut stop
  have whole : digits = kept.reverse ++ taken.reverse := by rw [← List.reverse_append, cut, List.reverse_reverse]
  have length : digits.length - taken.length = kept.reverse.length := by
    rw [whole, List.length_append, List.length_reverse, List.length_reverse, Nat.add_sub_cancel]
  rw [length]
  subst whole
  rw [List.take_left]
  refine ⟨?_, fun last => ?_⟩
  · rw [List.append_cancel_left_eq, zeros, List.reverse_replicate, List.length_replicate]
  · rw [List.getLast?_reverse] at last
    rw [last] at stop
    cases stop

theorem canonicalDecimalLiteral_cut {mantissa exponent whole fraction : Text}
    (cut : (splitOnce isMarker text).getD (text, [48]) = (mantissa, exponent))
    (split : (splitOnce isDot mantissa).getD (mantissa, []) = (whole, fraction)) :
    canonicalDecimalLiteral text =
      if whole = [] ∨ ¬whole.all isDigit ∨ ¬fraction.all isDigit then none
      else
        let digits := trimStartMatches (whole ++ fraction)
        if digits = [] then some [48, 101, 48]
        else
          let trailing := (digits.reverse.takeWhile (· = 48)).length
          let significand := digits.take (digits.length - trailing)
          (SignedDecimal.parse exponent).map fun exponent =>
            significand ++ 101 :: ((exponent.addSignedCount false fraction.length).addSignedCount true trailing).render := by
  have cut' : (splitOnce (fun byte => byte = 101 || byte = 69) text).getD (text, [48]) = (mantissa, exponent) := cut
  have split' : (splitOnce (fun byte => byte = 46) mantissa).getD (mantissa, []) = (whole, fraction) := split
  simp only [canonicalDecimalLiteral, cut', split']

theorem significand_denotes {digits : Text} (some' : digits ≠ []) (all : ∀ byte ∈ digits, isDigit byte)
    (lead : digits.head? ≠ some 48) :
    let trailing := (digits.reverse.takeWhile (· = 48)).length
    let significand := digits.take (digits.length - trailing)
    Denotes significand (accumulate 0 significand) ∧ significand.head? ≠ some 48 ∧ significand.getLast? ≠ some 48 ∧
      accumulate 0 digits = accumulate 0 significand * 10 ^ trailing := by
  intro trailing significand
  obtain ⟨whole, last⟩ := trailing_split digits
  change digits = significand ++ List.replicate trailing 48 at whole
  have nonempty : significand ≠ [] := fun empty => by
    rw [empty, List.nil_append] at whole
    rw [whole] at some' lead
    rw [List.head?_replicate] at lead
    split at lead
    next none' => exact some' (by rw [none']; rfl)
    next => exact lead rfl
  refine ⟨⟨nonempty, fun byte member => all byte (List.mem_of_mem_take member), rfl⟩, ?_, last, ?_⟩
  · rw [whole, List.head?_append_of_ne_nil _ nonempty] at lead
    exact lead
  · conv_lhs => rw [whole]
    rw [accumulate_append, accumulate_zeros, List.length_replicate, Nat.add_zero]

theorem canonicalDecimalLiteral_literal (literal : Literal [101, 69] text v) :
    ∃ canonical n k, canonicalDecimalLiteral text = some canonical ∧ Canonical canonical n k ∧ v = n * 10 ^ k := by
  have known : ∀ marker ∈ ([101, 69] : List UInt8), isMarker marker = true := by simp [isMarker]
  obtain ⟨mantissa, digits, places, exponent, k, cut, mantissa', shift, rfl⟩ := literal.split known
  obtain ⟨whole, fraction, split, some', all, all', rfl, rfl⟩ := mantissa'.split
  have accepted : ¬(whole = [] ∨ ¬whole.all isDigit ∨ ¬fraction.all isDigit) := by
    rintro (empty | other | other)
    · exact some' empty
    · exact other (List.all_eq_true.mpr all)
    · exact other (List.all_eq_true.mpr all')
  rw [canonicalDecimalLiteral_cut cut split, if_neg accepted]
  have both : ∀ byte ∈ whole ++ fraction, isDigit byte := fun byte member =>
    (List.mem_append.mp member).elim (all byte) (all' byte)
  rw [← accumulate_trim (whole ++ fraction)]
  have each := trim_digits both
  have lead := trim_lead (whole ++ fraction)
  generalize trimStartMatches (whole ++ fraction) = digits at each lead
  dsimp only
  split
  next none' =>
    subst none'
    exact ⟨_, 0, 0, rfl, .zero, by simp [accumulate]⟩
  next some'' =>
    obtain ⟨denotes, lead, last, value⟩ := significand_denotes some'' each lead
    obtain ⟨self, parsed, stands⟩ := parse_stands shift
    rw [parsed]
    have stands := addSignedCount_stands (addSignedCount_stands stands false fraction.length) true
      (digits.reverse.takeWhile (· = 48)).length
    refine ⟨_, _, _, rfl, .nonzero denotes lead last (render_spells stands), ?_⟩
    have ten : (10 : ℚ) ≠ 0 := by norm_num
    rw [value, if_pos rfl, if_neg Bool.false_ne_true, zpow_add₀ ten, zpow_natCast]
    push_cast
    ring

theorem last_nonzero {significand : Text} {n : Nat} (denotes : Denotes significand n) (last : significand.getLast? ≠ some 48) :
    ¬10 ∣ n := by
  obtain ⟨some', all, rfl⟩ := denotes
  obtain ⟨front, byte, rfl⟩ : ∃ front byte, significand = front ++ [byte] :=
    ⟨_, _, (List.dropLast_append_getLast some').symm⟩
  rw [List.getLast?_concat] at last
  have one := all byte (List.mem_append_right _ (List.mem_singleton_self _))
  have low := digit_lt one
  have nonzero : digit byte ≠ 0 := fun zero => last (by rw [(digit_zero one).mp zero])
  have value : accumulate 0 (front ++ [byte]) = accumulate 0 front * 10 + digit byte := by
    rw [accumulate_append, accumulate_cons]
    simp [accumulate]
  rw [value]
  omega

/-- A value has one number without zeros behind and one exponent. -/
theorem scaled_unique {n m : Nat} {k l : ℤ} (whole : ¬10 ∣ n) (whole' : ¬10 ∣ m) (same : (n : ℚ) * 10 ^ k = m * 10 ^ l) :
    n = m ∧ k = l := by
  have ten : (10 : ℚ) ≠ 0 := by norm_num
  wlog below : k ≤ l generalizing n m k l
  · obtain ⟨rfl, rfl⟩ := this whole' whole same.symm (by omega)
    exact ⟨rfl, rfl⟩
  obtain ⟨gap, rfl⟩ := Int.le.dest below
  rw [zpow_add₀ ten, mul_comm ((10 : ℚ) ^ k), ← mul_assoc, mul_left_inj' (zpow_ne_zero k ten), zpow_natCast] at same
  have natural : n = m * 10 ^ gap := by exact_mod_cast same
  cases gap with
  | zero => exact ⟨by omega, by omega⟩
  | succ gap => exact absurd (natural ▸ Dvd.intro_left (m * 10 ^ gap) (by rw [pow_succ, mul_assoc])) whole

theorem nonzero_positive {n : Nat} (whole : ¬10 ∣ n) : 0 < n := Nat.pos_of_ne_zero fun zero => whole (zero ▸ dvd_zero 10)

theorem canonical_unique {canonical other : Text} {n m : Nat} {k l : ℤ} (left : Canonical canonical n k)
    (right : Canonical other m l) (same : (n : ℚ) * 10 ^ k = m * 10 ^ l) : canonical = other := by
  have ten : ∀ k : ℤ, (10 : ℚ) ^ k ≠ 0 := fun k => zpow_ne_zero k (by norm_num)
  cases left with
  | zero =>
    cases right with
    | zero => rfl
    | nonzero denotes lead last shift =>
      have positive := nonzero_positive (last_nonzero denotes last)
      rw [Nat.cast_zero, zero_mul, eq_comm, mul_eq_zero, or_iff_left (ten l), Nat.cast_eq_zero] at same
      omega
  | @nonzero significand exponent _ _ denotes lead last shift =>
    cases right with
    | zero =>
      have positive := nonzero_positive (last_nonzero denotes last)
      rw [Nat.cast_zero, zero_mul, mul_eq_zero, or_iff_left (ten k), Nat.cast_eq_zero] at same
      omega
    | nonzero denotes' lead' last' shift' =>
      obtain ⟨rfl, rfl⟩ := scaled_unique (last_nonzero denotes last) (last_nonzero denotes' last') same
      have number := (Spells.of_lead denotes.1 denotes.2.1 denotes.2.2 lead).eq
      have number' := (Spells.of_lead denotes'.1 denotes'.2.1 denotes'.2.2 lead').eq
      rw [number, number', shift.unique shift']

theorem exponent_of_spells {exponent : Text} {k : ℤ} (spells : SpellsInt exponent k) : Exponent exponent k := by
  rcases spells with ⟨sign, spells⟩ | ⟨sign, rest, rfl, spells⟩
  · have := Exponent.plain spells.denotes
    rwa [Int.natAbs_of_nonneg sign] at this
  · have := Exponent.minus spells.denotes
    rwa [show -(k.natAbs : ℤ) = k by omega] at this

theorem Canonical.literal {canonical : Text} {n : Nat} {k : ℤ} {markers : List UInt8} (known : 101 ∈ markers)
    (form : Canonical canonical n k) : Literal markers canonical (n * 10 ^ k) := by
  cases form with
  | zero =>
    have := Literal.scaled (@Mantissa.whole [48] (List.cons_ne_nil _ _) (single_digit rfl)) known exponent_zero
    simpa [accumulate, digit] using this
  | nonzero denotes lead last shift =>
    have := Literal.scaled (.whole denotes.1 denotes.2.1) known (exponent_of_spells shift)
    rwa [denotes.2.2, Nat.cast_zero, sub_zero] at this

section Read
variable {canonical : Text} {n m : Nat} {k l : ℤ}

theorem Canonical.cut (form : Canonical canonical n k) :
    ∃ digits exponent, canonical = digits ++ 101 :: exponent ∧ Denotes digits n ∧ SpellsInt exponent k := by
  cases form with
  | zero => exact ⟨[48], [48], rfl, ⟨List.cons_ne_nil _ _, single_digit rfl, rfl⟩, .inl ⟨Int.le_refl _, spelling_spells 0⟩⟩
  | nonzero denotes _ _ shift => exact ⟨_, _, rfl, denotes, shift⟩

theorem splitOnce_digits {marker : UInt8} {digits : Text} (exponent : Text) (denotes : Denotes digits n) (apart : ¬isDigit marker) :
    splitOnce (fun byte => byte = marker) (digits ++ marker :: exponent) = some (digits, exponent) := by
  refine splitOnce_found (fun byte member => ?_) (decide_eq_true rfl)
  rw [decide_eq_false_iff_not]
  rintro rfl
  exact apart (denotes.2.1 byte member)

theorem not_digit_e : ¬isDigit 101 := by decide

theorem Canonical.value (left : Canonical canonical n k) (right : Canonical canonical m l) :
    (n : ℚ) * 10 ^ k = m * 10 ^ l := by
  obtain ⟨digits, exponent, rfl, denotes, shift⟩ := left.cut
  obtain ⟨digits', exponent', same, denotes', shift'⟩ := right.cut
  have found := splitOnce_digits exponent denotes not_digit_e
  rw [same, splitOnce_digits exponent' denotes' not_digit_e] at found
  obtain ⟨rfl, rfl⟩ := Prod.mk.inj (Option.some.inj found)
  obtain ⟨i, one, rfl⟩ := signSplit_exponent (exponent_of_spells shift)
  obtain ⟨j, other, rfl⟩ := signSplit_exponent (exponent_of_spells shift')
  rw [← one.2.2, ← other.2.2, ← denotes.2.2, ← denotes'.2.2]

end Read

/-- The text before the marker of an exponent. -/
def mantissaText (text : Text) : Text := text.takeWhile fun byte => !isMarker byte

theorem mantissaText_cases (text : Text) :
    ((splitOnce isMarker text).getD (text, [48]) = (text, [48]) ∧ mantissaText text = text) ∨
      ∃ marker exponent, text = mantissaText text ++ marker :: exponent ∧ marker ∈ ([101, 69] : List UInt8) ∧
        (splitOnce isMarker text).getD (text, [48]) = (mantissaText text, exponent) := by
  rcases splitOnce_cases isMarker text with ⟨found, absent⟩ | ⟨front, marker, exponent, same, here, absent, found⟩
  · refine .inl ⟨by rw [found]; rfl, ?_⟩
    rw [mantissaText, List.takeWhile_eq_self_iff]
    exact fun byte member => by rw [absent byte member]; rfl
  · have before : mantissaText text = front := by
      have skip : ∀ byte ∈ front, (!isMarker byte) = true := fun byte member => by rw [absent byte member]; rfl
      rw [mantissaText, same, List.takeWhile_append_of_pos skip, List.takeWhile_cons, here]
      simp
    refine .inr ⟨marker, exponent, by rw [before]; exact same, ?_, by rw [before, found]; rfl⟩
    simpa [isMarker] using here

/-- The digits around the point are always asked for, and the exponent where they are not all zero. -/
theorem accepted_cases {canonical : Text} (accepted : canonicalDecimalLiteral text = some canonical) :
    ∃ digits places, Mantissa (mantissaText text) digits places ∧
      ((∃ v, Literal [101, 69] text v) ∨ accumulate 0 digits = 0 ∧ canonical = [48, 101, 48]) := by
  obtain ⟨exponent, cut⟩ : ∃ exponent, (splitOnce isMarker text).getD (text, [48]) = (mantissaText text, exponent) := by
    rcases mantissaText_cases text with ⟨cut, same⟩ | ⟨_, exponent, -, -, cut⟩
    · exact ⟨_, by rw [cut, same]⟩
    · exact ⟨_, cut⟩
  cases split : (splitOnce isDot (mantissaText text)).getD (mantissaText text, []) with
  | mk whole fraction =>
    rw [canonicalDecimalLiteral_cut cut split] at accepted
    split at accepted
    · cases accepted
    next good =>
      rw [not_or, not_or, not_not, not_not, List.all_eq_true, List.all_eq_true] at good
      have mantissa := Mantissa.of_split split good.1 good.2.1 good.2.2
      refine ⟨_, _, mantissa, ?_⟩
      dsimp only at accepted
      split at accepted
      next none' =>
        refine .inr ⟨?_, (Option.some.inj accepted).symm⟩
        rw [← accumulate_trim, none']
        rfl
      next =>
        refine .inl ?_
        rcases mantissaText_cases text with ⟨-, same⟩ | ⟨marker, behind, same, known, cut'⟩
        · rw [same] at mantissa
          exact ⟨_, .bare mantissa⟩
        · obtain rfl : behind = exponent := (Prod.mk.inj (cut'.symm.trans cut)).2
          obtain ⟨self, parsed, -⟩ := Option.map_eq_some_iff.mp accepted
          obtain ⟨k, shift⟩ := exponent_of_parse parsed
          rw [same]
          exact ⟨_, .scaled mantissa known shift⟩

theorem canonical_of_accepted {canonical : Text} (accepted : canonicalDecimalLiteral text = some canonical) :
    ∃ n k, Canonical canonical n k := by
  obtain ⟨_, _, -, ⟨v, literal⟩ | ⟨-, rfl⟩⟩ := accepted_cases accepted
  · obtain ⟨canonical', n, k, same, form, -⟩ := canonicalDecimalLiteral_literal literal
    obtain rfl : canonical' = canonical := Option.some.inj (same.symm.trans accepted)
    exact ⟨n, k, form⟩
  · exact ⟨0, 0, .zero⟩

theorem canonicalDecimalLiteral_canonical {canonical : Text} {n : Nat} {k : ℤ} (form : Canonical canonical n k) :
    canonicalDecimalLiteral canonical = some canonical := by
  obtain ⟨other, m, l, same, form', value⟩ := canonicalDecimalLiteral_literal (@Canonical.literal _ _ _ [101, 69] List.mem_cons_self form)
  rw [same, canonical_unique form form' value]

section Display
variable {digits : Text} {n : Nat} {k : ℤ} {markers : List UInt8}

theorem accumulate_lead_zero (zeros : Nat) (digits : Text) :
    accumulate 0 (List.replicate zeros 48 ++ digits) = accumulate 0 digits := by
  rw [accumulate_append, accumulate_zeros, Nat.zero_mul, Nat.zero_add]

theorem replicate_digits {count : Nat} : ∀ byte ∈ List.replicate count (48 : UInt8), isDigit byte := by
  intro byte member
  rw [List.eq_of_mem_replicate member]
  decide

theorem plainText_literal (denotes : Denotes digits n) : Literal markers (plainText digits k (digits.length + k)) (n * 10 ^ k) := by
  have ten : (10 : ℚ) ≠ 0 := by norm_num
  obtain ⟨some', all, rfl⟩ := denotes
  rw [plainText]
  split
  next whole =>
    obtain ⟨count, rfl⟩ := Int.eq_ofNat_of_zero_le whole
    have mantissa := @Mantissa.dotted (digits ++ List.replicate count 48) [48]
      (List.append_ne_nil_of_left_ne_nil some' _)
      (fun byte member => (List.mem_append.mp member).elim (all byte) (replicate_digits byte)) (single_digit rfl)
    have literal := @Literal.bare markers _ _ _ mantissa
    have value : ((accumulate 0 (digits ++ List.replicate count 48 ++ [48]) : Nat) : ℚ) * 10 ^ (-(([48] : Text).length : ℤ)) =
        (accumulate 0 digits : ℚ) * 10 ^ (count : ℤ) := by
      rw [accumulate_append, accumulate_append, accumulate_zeros, List.length_replicate]
      simp [accumulate, digit]
    rw [value] at literal
    exact literal
  next below =>
    split
    next inside =>
      have mantissa := @Mantissa.dotted (digits.take (digits.length + k).toNat)
        (digits.drop (digits.length + k).toNat)
        (by rw [Ne, List.take_eq_nil_iff]; exact fun none' => none'.elim (by omega) some')
        (fun byte member => all byte (List.mem_of_mem_take member)) (fun byte member => all byte (List.mem_of_mem_drop member))
      have literal := @Literal.bare markers _ _ _ mantissa
      rw [List.take_append_drop, List.length_drop] at literal
      rwa [show -((digits.length - (digits.length + k).toNat : Nat) : ℤ) = k by omega] at literal
    next outside =>
      have mantissa := @Mantissa.dotted [48] (List.replicate (-(digits.length + k)).toNat 48 ++ digits)
        (List.cons_ne_nil _ _) (single_digit rfl) (fun byte member => (List.mem_append.mp member).elim (replicate_digits byte) (all byte))
      have literal := @Literal.bare markers _ _ _ mantissa
      rw [accumulate_append [48], accumulate_lead_zero, List.length_append, List.length_replicate] at literal
      rw [show accumulate 0 [48] = 0 from rfl, Nat.zero_mul, Nat.zero_add] at literal
      rwa [show -(((-(digits.length + k)).toNat + digits.length : Nat) : ℤ) = k by omega] at literal

theorem spellInt_exponent (k : ℤ) : Exponent ((if 0 ≤ k then [43] else []) ++ spellInt k) k := by
  rw [spellInt]
  split
  next sign =>
    have := Exponent.plus (spelling_spells k.natAbs).denotes
    rw [Int.natAbs_of_nonneg sign] at this
    rwa [if_neg (by omega)]
  next sign =>
    have := Exponent.minus (spelling_spells k.natAbs).denotes
    rw [show -(k.natAbs : ℤ) = k by omega] at this
    rwa [if_pos (by omega)]

theorem scientificText_literal (denotes : Denotes digits n) (known : 101 ∈ markers) :
    Literal markers (scientificText digits (digits.length + k - 1)) (n * 10 ^ k) := by
  obtain ⟨some', all, rfl⟩ := denotes
  obtain ⟨byte, rest, rfl⟩ := List.exists_cons_of_ne_nil some'
  simp only [scientificText]
  split
  next alone =>
    obtain rfl : rest = [] := alone
    have literal := Literal.scaled (.whole (List.cons_ne_nil _ _) all) known (spellInt_exponent (([byte] : Text).length + k - 1))
    simpa using literal
  next more =>
    have mantissa := @Mantissa.dotted [byte] rest (List.cons_ne_nil _ _)
      (fun other member => all other (by rw [List.mem_singleton.mp member]; exact List.mem_cons_self))
      (fun other member => all other (List.mem_cons_of_mem _ member))
    have literal := Literal.scaled mantissa known (spellInt_exponent ((byte :: rest).length + k - 1))
    rw [show (((byte :: rest).length : ℤ) + k - 1 - rest.length) = k by rw [List.length_cons]; omega] at literal
    simpa using literal

theorem parseI64_spells {exponent : Text} (spells : SpellsInt exponent k) :
    parseI64 exponent = if fitsI64 k then some k else none := by
  obtain ⟨n, denotes, value⟩ := signSplit_exponent (exponent_of_spells spells)
  simp only [parseI64]
  rw [if_neg fun bad => not_denoting_iff.mp bad ⟨n, denotes⟩, denotes.2.2]
  rw [value]

theorem takeWhile_digits {exponent : Text} (all : ∀ byte ∈ digits, isDigit byte) :
    (digits ++ 101 :: exponent).takeWhile isDigit = digits := by
  rw [List.takeWhile_append_of_pos all, List.takeWhile_cons]
  simp [isDigit]

theorem fitsI64_iff (value : ℤ) : fitsI64 value = true ↔ i64Min ≤ value ∧ value ≤ i64Max := by
  rw [fitsI64, Bool.and_eq_true, decide_eq_true_eq, decide_eq_true_eq]

theorem displayFloatValueText_signed {sign text : Text} (signed : sign = [] ∨ sign = [45]) (plain : text.head? ≠ some 45) :
    displayFloatValueText (sign ++ text) =
      match splitOnce (fun byte => byte = 101) text with
      | none => some (sign ++ text)
      | some (digits, exponent) =>
        match parseI64 exponent with
        | none => some (sign ++ text)
        | some exponent =>
          if digits = [] ∨ ¬digits.all isDigit then some (sign ++ text)
          else if i64Max < digits.length then some (sign ++ text)
          else
            let point := digits.length + exponent
            if !fitsI64 point then none
            else if -4 ≤ point ∧ point ≤ 16 then some (sign ++ plainText digits exponent point)
            else if !fitsI64 (point - 1) then none
            else some (sign ++ scientificText digits (point - 1)) := by
  rcases signed with rfl | rfl
  · rw [List.nil_append]
    unfold displayFloatValueText
    split
    next apart =>
      split at apart
      · exact absurd rfl plain
      · cases apart
        rfl
  · rfl

/-- The sign stands in front of everything that is shown. -/
theorem displayFloatValueText_shown {canonical sign : Text} (signed : sign = [] ∨ sign = [45]) (form : Canonical canonical n k)
    (room : fitsI64 k → fitsI64 ((canonical.takeWhile isDigit).length + k)) :
    ∃ shown, displayFloatValueText (sign ++ canonical) = some (sign ++ shown) ∧ Literal [101] shown (n * 10 ^ k) := by
  have same := @Canonical.literal _ _ _ [101] List.mem_cons_self form
  obtain ⟨digits, exponent, rfl, denotes, shift⟩ := form.cut
  rw [takeWhile_digits denotes.2.1] at room
  have plain : (digits ++ 101 :: exponent).head? ≠ some 45 := by
    rw [List.head?_append_of_ne_nil _ denotes.1]
    exact (plain_head denotes).1
  have found := splitOnce_digits exponent denotes not_digit_e
  rw [displayFloatValueText_signed signed plain, found]
  dsimp only
  rw [parseI64_spells shift]
  cases fits : fitsI64 k with
  | false => exact ⟨_, rfl, same⟩
  | true =>
    simp only [if_true]
    split
    next => exact ⟨_, rfl, same⟩
    split
    next => exact ⟨_, rfl, same⟩
    rw [room fits]
    simp only [Bool.not_true, Bool.false_eq_true, if_false]
    split
    next => exact ⟨_, rfl, plainText_literal denotes⟩
    have inside : fitsI64 (digits.length + k - 1) = true := by
      have some' := List.length_pos_of_ne_nil denotes.1
      have counted := room fits
      rw [fitsI64_iff, i64Min, i64Max] at fits counted ⊢
      omega
    rw [inside]
    exact ⟨_, rfl, scientificText_literal denotes List.mem_cons_self⟩

end Display

/-- Canonical texts have the values of their literals and stand for them alone, other texts
with an exponent to read are refused, and the shown notation has the same value where the
place of the point is counted in 64 bits. -/
theorem canonicalDecimalLiteral_exact :
    (∀ text v, Literal [101, 69] text v →
      ∃ canonical n k, canonicalDecimalLiteral text = some canonical ∧ Canonical canonical n k ∧ v = n * 10 ^ k) ∧
    (∀ text other v w, Literal [101, 69] text v → Literal [101, 69] other w →
      (canonicalDecimalLiteral text = canonicalDecimalLiteral other ↔ v = w)) ∧
    (∀ text canonical, canonicalDecimalLiteral text = some canonical → canonicalDecimalLiteral canonical = some canonical) ∧
    (∀ text canonical, canonicalDecimalLiteral text = some canonical →
      ∃ digits places, Mantissa (mantissaText text) digits places ∧
        (accumulate 0 digits ≠ 0 → ∃ v, Literal [101, 69] text v)) ∧
    ∀ canonical n k sign, Canonical canonical n k → sign = [] ∨ sign = [45] →
      (fitsI64 k → fitsI64 ((canonical.takeWhile isDigit).length + k)) →
      ∃ shown, displayFloatValueText (sign ++ canonical) = some (sign ++ shown) ∧ Literal [101] shown (n * 10 ^ k) := by
  refine ⟨fun _ _ literal => canonicalDecimalLiteral_literal literal, fun text other v w left right => ?_, ?_, ?_, ?_⟩
  · obtain ⟨canonical, n, k, same, form, rfl⟩ := canonicalDecimalLiteral_literal left
    obtain ⟨canonical', m, l, same', form', rfl⟩ := canonicalDecimalLiteral_literal right
    rw [same, same', Option.some_inj]
    refine ⟨?_, canonical_unique form form'⟩
    rintro rfl
    exact form.value form'
  · intro text canonical accepted
    obtain ⟨n, k, form⟩ := canonical_of_accepted accepted
    exact canonicalDecimalLiteral_canonical form
  · intro text canonical accepted
    obtain ⟨digits, places, mantissa, literal | ⟨zero, -⟩⟩ := accepted_cases accepted
    · exact ⟨digits, places, mantissa, fun _ => literal⟩
    · exact ⟨digits, places, mantissa, fun nonzero => absurd zero nonzero⟩
  · exact fun canonical n k sign form signed room => displayFloatValueText_shown signed form room

/-- `1.5e1`, and the same number written in full. -/
theorem fifteen_canonical :
    canonicalDecimalLiteral [49, 46, 53, 101, 49] = canonicalDecimalLiteral [49, 53] ∧
      canonicalDecimalLiteral [49, 53, 101, 48] = some [49, 53, 101, 48] ∧
      ∃ shown, displayFloatValueText [45, 49, 53, 101, 48] = some (45 :: shown) ∧ Literal [101] shown (15 * 10 ^ (0 : ℤ)) := by
  have two : ∀ byte ∈ ([49, 53] : Text), isDigit byte := List.forall_mem_cons.mpr ⟨rfl, single_digit rfl⟩
  have one : Exponent [49] 1 := .plain ⟨List.cons_ne_nil _ _, single_digit rfl, rfl⟩
  have scaled : Literal [101, 69] [49, 46, 53, 101, 49] 15 := by
    have literal := @Literal.scaled [101, 69] _ _ _ 101 _ _
      (@Mantissa.dotted [49] [53] (List.cons_ne_nil _ _) (single_digit rfl) (single_digit rfl)) List.mem_cons_self one
    simpa [accumulate, digit] using literal
  have bare : Literal [101, 69] [49, 53] 15 := by
    have literal := @Literal.bare [101, 69] _ _ _ (@Mantissa.whole [49, 53] (List.cons_ne_nil _ _) two)
    simpa [accumulate, digit] using literal
  have form : Canonical [49, 53, 101, 48] 15 0 :=
    @Canonical.nonzero [49, 53] _ _ _ ⟨List.cons_ne_nil _ _, two, rfl⟩ (by decide) (by decide)
      (.inl ⟨Int.le_refl _, spelling_spells 0⟩)
  obtain ⟨shown, displayed, literal⟩ := canonicalDecimalLiteral_exact.2.2.2.2 _ 15 0 [45] form (.inr rfl) fun _ => by decide
  refine ⟨(canonicalDecimalLiteral_exact.2.1 _ _ 15 15 scaled bare).mpr rfl, ?_, shown, displayed, literal⟩
  exact canonicalDecimalLiteral_exact.2.2.1 [49, 53] _ (by decide)

/-- `1E0` has a canonical text but not the form of a literal, and the place of the point of
`1e9223372036854775807` does not fit 64 bits. -/
theorem capital_accepted :
    canonicalDecimalLiteral [49, 69, 48] = some [49, 101, 48] ∧ (¬∃ v, Literal [101] [49, 69, 48] v) ∧
      displayFloatValueText (49 :: 101 :: spelling (2 ^ 63 - 1)) = none := by
  refine ⟨by decide, ?_, by decide⟩
  rintro ⟨v, literal⟩
  have known : ∀ marker ∈ ([101] : List UInt8), isMarker marker = true := by simp [isMarker]
  generalize whole : ([49, 69, 48] : Text) = text at literal
  cases literal with
  | bare mantissa =>
    have unmarked := mantissa.unmarked 69 (by rw [← whole]; decide)
    exact absurd unmarked (by decide)
  | @scaled front _ _ marker exponent _ mantissa member shift =>
    obtain rfl : marker = 101 := List.mem_singleton.mp member
    have inside : (101 : UInt8) ∈ ([49, 69, 48] : Text) := by
      rw [whole]
      exact List.mem_append_right _ List.mem_cons_self
    exact absurd inside (by decide)

end Rue.Proofs.Air.ExactDecimal
