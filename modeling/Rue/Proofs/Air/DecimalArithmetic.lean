import Rue.Air.ExactDecimal

/-! Arithmetic on decimal texts computes with the numbers they spell, and keeps them
free of leading zeros. -/

namespace Rue.Proofs.Air.DecimalArithmetic
open Rue.Lib.Decimal Rue.Air.ExactDecimal

variable {lhs rhs bytes : Text} {a b n : Nat}

/-- The number of a text with its least significant digit first. -/
def ofLe (bytes : Text) : Nat := Nat.ofDigits 10 (bytes.map digit)

theorem ofLe_nil : ofLe [] = 0 := rfl

theorem ofLe_cons (byte : UInt8) (rest : Text) : ofLe (byte :: rest) = digit byte + 10 * ofLe rest := by
  rw [ofLe, List.map_cons, Nat.ofDigits_cons]
  rfl

theorem ofLe_head (bytes : Text) : ofLe bytes = bytes.head?.elim 0 digit + 10 * ofLe bytes.tail := by
  cases bytes with
  | nil => rfl
  | cons byte rest => exact ofLe_cons byte rest

theorem ofLe_reverse (bytes : Text) : ofLe bytes.reverse = accumulate 0 bytes := by
  rw [accumulate_eq, Nat.zero_mul, Nat.zero_add, ofLe]

theorem accumulate_reverse (bytes : Text) : accumulate 0 bytes.reverse = ofLe bytes := by
  rw [← ofLe_reverse, List.reverse_reverse]

theorem digit_zero {byte : UInt8} (one : isDigit byte) : digit byte = 0 ↔ byte = 48 := by
  obtain ⟨low, high⟩ := isDigit_iff.mp one
  rw [digit]
  constructor
  · intro none'
    exact UInt8.toNat_inj.mp (by change byte.toNat = 48; omega)
  · rintro rfl
    rfl

theorem head_small (digits : ∀ byte ∈ bytes, isDigit byte) : bytes.head?.elim 0 digit < 10 := by
  cases bytes with
  | nil => exact (by decide)
  | cons byte rest => exact digit_lt (digits byte List.mem_cons_self)

theorem tail_digits (digits : ∀ byte ∈ bytes, isDigit byte) : ∀ byte ∈ bytes.tail, isDigit byte :=
  fun byte member => digits byte (List.mem_of_mem_tail member)

/-- The most significant digit, which comes last, is not zero. -/
def Top (bytes : Text) : Prop := bytes.getLast? ≠ some 48

theorem Top.tail (top : Top bytes) : Top bytes.tail := by
  cases bytes with
  | nil => exact top
  | cons byte rest =>
    cases rest with
    | nil => exact nofun
    | cons next rest => exact top

theorem addDigits_step {carry : Nat} (more : ¬(lhs = [] ∧ rhs = [] ∧ carry = 0)) : addDigits lhs rhs carry =
    ofDigit ((lhs.head?.elim 0 digit + rhs.head?.elim 0 digit + carry) % 10) ::
      addDigits lhs.tail rhs.tail ((lhs.head?.elim 0 digit + rhs.head?.elim 0 digit + carry) / 10) := by
  rw [addDigits, if_neg more]

theorem addDigits_value (lhs rhs : Text) (carry : Nat) : ofLe (addDigits lhs rhs carry) = ofLe lhs + ofLe rhs + carry := by
  induction lhs, rhs, carry using addDigits.induct with
  | case1 lhs rhs carry done =>
    obtain ⟨rfl, rfl, rfl⟩ := done
    rw [addDigits, if_pos ⟨rfl, rfl, rfl⟩]
    rfl
  | case2 lhs rhs carry more sum ih =>
    rw [addDigits, if_neg more, ofLe_cons, ih, ofLe_head lhs, ofLe_head rhs, digit_ofDigit (Nat.mod_lt _ (by decide))]
    omega

theorem addDigits_digits (lhs rhs : Text) (carry : Nat) : ∀ byte ∈ addDigits lhs rhs carry, isDigit byte := by
  induction lhs, rhs, carry using addDigits.induct with
  | case1 lhs rhs carry done =>
    rw [addDigits, if_pos done]
    exact nofun
  | case2 lhs rhs carry more sum ih =>
    rw [addDigits, if_neg more]
    intro byte member
    rcases List.mem_cons.mp member with rfl | later
    · exact isDigit_ofDigit (Nat.mod_lt _ (by decide))
    · exact ih byte later

theorem addDigits_nil_iff {carry : Nat} : addDigits lhs rhs carry = [] ↔ lhs = [] ∧ rhs = [] ∧ carry = 0 := by
  rw [addDigits]
  split
  next done => exact ⟨fun _ => done, fun _ => rfl⟩
  next more => exact ⟨nofun, fun done => absurd done more⟩

/-- The last digit of a number that is not zero, when it is the only one. -/
theorem Top.single (top : Top bytes) (digits : ∀ byte ∈ bytes, isDigit byte) (alone : bytes.tail = []) :
    bytes = [] ∨ bytes.head?.elim 0 digit ≠ 0 := by
  cases bytes with
  | nil => exact .inl rfl
  | cons byte rest =>
    simp only [List.tail_cons] at alone
    subst alone
    refine .inr fun none' => top ?_
    rw [(digit_zero (digits byte List.mem_cons_self)).mp none']
    rfl

theorem addDigits_top {carry : Nat} (left : Top lhs) (right : Top rhs) (digits : ∀ byte ∈ lhs, isDigit byte)
    (digits' : ∀ byte ∈ rhs, isDigit byte) (small : carry < 10) : Top (addDigits lhs rhs carry) := by
  induction lhs, rhs, carry using addDigits.induct with
  | case1 lhs rhs carry done =>
    rw [addDigits, if_pos done]
    exact nofun
  | case2 lhs rhs carry more sum ih =>
    have first := head_small digits
    have second := head_small digits'
    have next := ih left.tail right.tail (tail_digits digits) (tail_digits digits') (by omega)
    have step : addDigits lhs rhs carry = ofDigit (sum % 10) :: addDigits lhs.tail rhs.tail (sum / 10) := addDigits_step more
    rw [step]
    cases rest : addDigits lhs.tail rhs.tail (sum / 10) with
    | cons byte after =>
      rw [rest] at next
      exact next
    | nil =>
      obtain ⟨leftEnds, rightEnds, none'⟩ := addDigits_nil_iff.mp rest
      have below : sum < 10 := Nat.lt_of_div_eq_zero (by decide) none'
      have some' : sum ≠ 0 := by
        intro zero'
        rcases left.single digits leftEnds with leftNil | leftSome
        · rcases right.single digits' rightEnds with rightNil | rightSome
          · exact more ⟨leftNil, rightNil, by omega⟩
          · omega
        · omega
      intro last
      have same : ofDigit (sum % 10) = 48 := Option.some.inj last
      have value := digit_ofDigit (Nat.mod_lt sum (by decide : 0 < 10))
      rw [same, Nat.mod_eq_of_lt below] at value
      exact some' value.symm

theorem addDigits_nil_left (digits : ∀ byte ∈ rhs, isDigit byte) : addDigits [] rhs 0 = rhs := by
  induction rhs with
  | nil => rw [addDigits, if_pos ⟨rfl, rfl, rfl⟩]
  | cons byte rest ih =>
    have one := digits byte List.mem_cons_self
    have small := digit_lt one
    rw [addDigits, if_neg nofun]
    have sum : (([] : Text).head?.elim 0 digit) + ((byte :: rest).head?.elim 0 digit) + 0 = digit byte := Nat.zero_add _
    simp only [sum, Nat.mod_eq_of_lt small, Nat.div_eq_of_lt small, ofDigit_digit one, List.tail_nil, List.tail_cons]
    rw [ih fun other member => digits other (List.mem_cons_of_mem _ member)]

theorem Spells.lead (spells : Spells bytes n) (positive : 0 < n) : bytes.head? ≠ some 48 := by
  intro zero'
  have value := spells.denotes.2.2
  rw [spells.trimmed zero'] at value
  exact absurd value (Nat.ne_of_lt positive)

theorem Spells.of_lead (some' : bytes ≠ []) (digits : ∀ byte ∈ bytes, isDigit byte) (value : accumulate 0 bytes = n)
    (lead : bytes.head? ≠ some 48) : Spells bytes n := ⟨⟨some', digits, value⟩, fun zero' => absurd zero' lead⟩

theorem reverse_digits (digits : ∀ byte ∈ bytes, isDigit byte) : ∀ byte ∈ bytes.reverse, isDigit byte :=
  fun byte member => digits byte (List.mem_reverse.mp member)

theorem addMagnitudes_spells (left : Spells lhs a) (right : Spells rhs b) (positive : 0 < b) :
    Spells (addMagnitudes lhs rhs) (a + b) := by
  have digits := reverse_digits left.denotes.2.1
  have digits' := reverse_digits right.denotes.2.1
  rcases Nat.eq_zero_or_pos a with rfl | more
  · obtain rfl : lhs = [48] := left.eq
    have step : addDigits [48] rhs.reverse 0 = rhs.reverse := by
      refine Eq.trans ?_ (addDigits_nil_left digits')
      cases turned : rhs.reverse with
      | nil => exact absurd (List.reverse_eq_nil_iff.mp turned) right.denotes.1
      | cons byte rest =>
        have more : ∀ text : Text, ¬(text = [] ∧ byte :: rest = [] ∧ 0 = 0) := fun _ done => List.cons_ne_nil _ _ done.2.1
        rw [addDigits_step (more [48]), addDigits_step (more [])]
        rfl
    rw [addMagnitudes, List.reverse_singleton, step, List.reverse_reverse, Nat.zero_add]
    exact right
  · have top : ∀ {text : Text}, text.head? ≠ some 48 → Top text.reverse := fun lead last =>
      lead (by rwa [List.getLast?_reverse] at last)
    refine Spells.of_lead ?_ (reverse_digits (addDigits_digits _ _ _)) ?_ ?_
    · intro empty
      have nil := (addDigits_nil_iff.mp (List.reverse_eq_nil_iff.mp empty)).1
      exact left.denotes.1 (List.reverse_eq_nil_iff.mp nil)
    · rw [addMagnitudes, accumulate_reverse, addDigits_value, ofLe_reverse, ofLe_reverse, left.denotes.2.2, right.denotes.2.2,
        Nat.add_zero]
    · rw [addMagnitudes, List.head?_reverse]
      exact addDigits_top (top (Spells.lead left more)) (top (Spells.lead right positive)) digits digits' (by decide)

/-- An exponent as it may be written, with a sign or without. -/
inductive Exponent : Text → Int → Prop where
  | plain {text n} (denotes : Denotes text n) : Exponent text n
  | plus {text n} (denotes : Denotes text n) : Exponent (43 :: text) n
  | minus {text n} (denotes : Denotes text n) : Exponent (45 :: text) (-n)

theorem subtractDigits_digits {borrow : Nat} (digits : ∀ byte ∈ lhs, isDigit byte) (digits' : ∀ byte ∈ rhs, isDigit byte)
    (small : borrow ≤ 1) : ∀ byte ∈ subtractDigits lhs rhs borrow, isDigit byte := by
  induction lhs generalizing rhs borrow with
  | nil => exact nofun
  | cons l lhs ih =>
    have first := digit_lt (digits l List.mem_cons_self)
    have second := head_small digits'
    have rest := fun {borrow} => @ih rhs.tail borrow (fun byte member => digits byte (List.mem_cons_of_mem _ member)) (tail_digits digits')
    rw [subtractDigits]
    split
    next lent =>
      intro byte member
      rcases List.mem_cons.mp member with rfl | later
      · exact isDigit_ofDigit (by omega)
      · exact rest (Nat.le_refl 1) byte later
    next enough =>
      intro byte member
      rcases List.mem_cons.mp member with rfl | later
      · exact isDigit_ofDigit (by omega)
      · exact rest (Nat.zero_le 1) byte later

theorem subtractDigits_value {borrow : Nat} (digits : ∀ byte ∈ lhs, isDigit byte) (digits' : ∀ byte ∈ rhs, isDigit byte)
    (small : borrow ≤ 1) (enough : ofLe rhs + borrow ≤ ofLe lhs) :
    ofLe (subtractDigits lhs rhs borrow) + (ofLe rhs + borrow) = ofLe lhs := by
  induction lhs generalizing rhs borrow with
  | nil =>
    rw [ofLe_nil] at enough
    rw [subtractDigits, ofLe_nil]
    omega
  | cons l lhs ih =>
    have first := digit_lt (digits l List.mem_cons_self)
    have second := head_small digits'
    have rest := fun {borrow} => @ih rhs.tail borrow (fun byte member => digits byte (List.mem_cons_of_mem _ member)) (tail_digits digits')
    rw [ofLe_cons, ofLe_head rhs] at enough ⊢
    rw [subtractDigits]
    split
    next lent =>
      have step := rest (Nat.le_refl 1) (by omega)
      rw [ofLe_cons, digit_ofDigit (by omega)]
      omega
    next left =>
      have step := rest (Nat.zero_le 1) (by omega)
      rw [ofLe_cons, digit_ofDigit (by omega)]
      omega

theorem popZeros_spells (some' : bytes ≠ []) (digits : ∀ byte ∈ bytes, isDigit byte) :
    Spells (popZeros bytes) (accumulate 0 bytes) := by
  induction bytes using popZeros.induct with
  | case1 => exact absurd rfl some'
  | case2 byte =>
    refine ⟨⟨some', digits, rfl⟩, fun zero' => ?_⟩
    rw [popZeros, Option.some.inj zero']
  | case3 next rest ih =>
    rw [popZeros, if_pos rfl]
    exact ih (List.cons_ne_nil _ _) fun byte member => digits byte (List.mem_cons_of_mem _ member)
  | case4 byte next rest other =>
    rw [popZeros, if_neg other]
    exact Spells.of_lead some' digits rfl fun zero' => other (Option.some.inj zero')

theorem subtractMagnitudes_spells (left : Spells lhs a) (right : Spells rhs b) (enough : b ≤ a) :
    Spells (subtractMagnitudes lhs rhs) (a - b) := by
  have digits := reverse_digits left.denotes.2.1
  have digits' := reverse_digits right.denotes.2.1
  have value := subtractDigits_value digits digits' (Nat.zero_le 1)
    (by rw [ofLe_reverse, ofLe_reverse, left.denotes.2.2, right.denotes.2.2]; exact enough)
  rw [ofLe_reverse, ofLe_reverse, left.denotes.2.2, right.denotes.2.2] at value
  have result : accumulate 0 (subtractDigits lhs.reverse rhs.reverse 0).reverse = a - b := by
    rw [accumulate_reverse]
    omega
  rw [subtractMagnitudes, ← result]
  refine popZeros_spells (fun empty => ?_) (reverse_digits (subtractDigits_digits digits digits' (Nat.zero_le 1)))
  cases turned : lhs.reverse with
  | nil => exact left.denotes.1 (List.reverse_eq_nil_iff.mp turned)
  | cons l rest =>
    rw [List.reverse_eq_nil_iff, turned, subtractDigits] at empty
    split at empty <;> cases empty

theorem accumulate_cons (byte : UInt8) (rest : Text) :
    accumulate 0 (byte :: rest) = digit byte * 10 ^ rest.length + accumulate 0 rest := by
  rw [accumulate, List.foldl_cons, ← accumulate, accumulate_eq, accumulate_eq 0, Nat.zero_mul, Nat.zero_add, Nat.zero_mul,
    Nat.zero_add]

theorem accumulate_lt (digits : ∀ byte ∈ bytes, isDigit byte) : accumulate 0 bytes < 10 ^ bytes.length := by
  induction bytes with
  | nil => exact (by decide)
  | cons byte rest ih =>
    have one := digit_lt (digits byte List.mem_cons_self)
    have more := ih fun other member => digits other (List.mem_cons_of_mem _ member)
    have scaled : digit byte * 10 ^ rest.length ≤ 9 * 10 ^ rest.length := Nat.mul_le_mul_right _ (by omega)
    rw [accumulate_cons, List.length_cons, pow_succ]
    omega

/-- A signed decimal has one magnitude, without leading zeros, and no negative zero. -/
structure Stands (decimal : SignedDecimal) (v : Int) : Prop where
  magnitude : Spells decimal.magnitude v.natAbs
  sign : decimal.negative = true ↔ v < 0

/-- Of texts of one length the lexicographic order is that of the numbers. -/
theorem compareBytes_eq (same : lhs.length = rhs.length) (digits : ∀ byte ∈ lhs, isDigit byte)
    (digits' : ∀ byte ∈ rhs, isDigit byte) : compareBytes lhs rhs = compare (accumulate 0 lhs) (accumulate 0 rhs) := by
  induction lhs generalizing rhs with
  | nil =>
    cases rhs with
    | nil => rfl
    | cons byte rest => cases same
  | cons l lhs ih =>
    cases rhs with
    | nil => cases same
    | cons r rhs =>
      have same := Nat.succ.inj same
      have one := digits l List.mem_cons_self
      have other := digits' r List.mem_cons_self
      have below := accumulate_lt fun byte member => digits byte (List.mem_cons_of_mem l member)
      have below' := accumulate_lt fun byte member => digits' byte (List.mem_cons_of_mem r member)
      have first : compare l.toNat r.toNat = compare (digit l) (digit r) := by
        obtain ⟨low, -⟩ := isDigit_iff.mp one
        obtain ⟨low', -⟩ := isDigit_iff.mp other
        rw [digit, digit, Nat.compare_eq_ite_lt, Nat.compare_eq_ite_lt]
        congr 1
        · rw [eq_iff_iff]; omega
        · congr 1
          rw [eq_iff_iff]; omega
      have tails := ih same (fun byte member => digits byte (List.mem_cons_of_mem _ member))
        fun byte member => digits' byte (List.mem_cons_of_mem _ member)
      rw [same] at below
      rw [compareBytes, first, accumulate_cons, accumulate_cons, same]
      rcases Nat.lt_trichotomy (digit l) (digit r) with less | equal | more
      · have gap : (digit l + 1) * 10 ^ rhs.length ≤ digit r * 10 ^ rhs.length := Nat.mul_le_mul_right _ less
        rw [Nat.add_mul, Nat.one_mul] at gap
        rw [Nat.compare_eq_lt.mpr less, Nat.compare_eq_lt.mpr (by omega)]
        rfl
      · rw [equal, Nat.compare_eq_eq.mpr rfl, Ordering.eq_then, tails, Nat.compare_eq_ite_lt, Nat.compare_eq_ite_lt]
        simp only [Nat.add_lt_add_iff_left]
      · have gap : (digit r + 1) * 10 ^ rhs.length ≤ digit l * 10 ^ rhs.length := Nat.mul_le_mul_right _ more
        rw [Nat.add_mul, Nat.one_mul] at gap
        rw [Nat.compare_eq_gt.mpr more, Nat.compare_eq_gt.mpr (by omega)]
        rfl

theorem lead_le (spells : Spells bytes n) (positive : 0 < n) : 10 ^ (bytes.length - 1) ≤ n := by
  have lead := Spells.lead spells positive
  obtain ⟨⟨some', digits, value⟩, -⟩ := spells
  cases bytes with
  | nil => exact absurd rfl some'
  | cons byte rest =>
    have first : digit byte ≠ 0 := fun none' => lead (congrArg some ((digit_zero (digits byte List.mem_cons_self)).mp none'))
    rw [accumulate_cons] at value
    have scaled : 1 * 10 ^ rest.length ≤ digit byte * 10 ^ rest.length := Nat.mul_le_mul_right _ (by omega)
    rw [List.length_cons, Nat.add_sub_cancel]
    omega

theorem shorter_lt (left : Spells lhs a) (right : Spells rhs b) (shorter : lhs.length < rhs.length) : a < b := by
  have below := accumulate_lt left.denotes.2.1
  rw [left.denotes.2.2] at below
  have some' := List.length_pos_iff.mpr left.denotes.1
  have positive : 0 < b := by
    rcases Nat.eq_zero_or_pos b with rfl | positive
    · have zero' : rhs = [48] := right.eq
      rw [zero', List.length_singleton] at shorter
      omega
    · exact positive
  have step : 10 ^ lhs.length ≤ 10 ^ (rhs.length - 1) := Nat.pow_le_pow_right (by decide) (by omega)
  have above := lead_le right positive
  omega

theorem compareMagnitudes_eq (left : Spells lhs a) (right : Spells rhs b) : compareMagnitudes lhs rhs = compare a b := by
  rw [compareMagnitudes]
  rcases Nat.lt_trichotomy lhs.length rhs.length with shorter | same | longer
  · rw [Nat.compare_eq_lt.mpr shorter, Nat.compare_eq_lt.mpr (shorter_lt left right shorter)]
    rfl
  · rw [Nat.compare_eq_eq.mpr same, Ordering.eq_then, compareBytes_eq same left.denotes.2.1 right.denotes.2.1,
      left.denotes.2.2, right.denotes.2.2]
  · rw [Nat.compare_eq_gt.mpr longer, Nat.compare_eq_gt.mpr (shorter_lt right left longer)]
    rfl

theorem accumulate_trim (bytes : Text) : accumulate 0 (trimStartMatches bytes) = accumulate 0 bytes := by
  induction bytes with
  | nil => rfl
  | cons byte rest ih =>
    rw [trimStartMatches, List.dropWhile_cons]
    split
    next zero' =>
      rw [decide_eq_true_eq] at zero'
      rw [accumulate_cons, zero', show digit 48 = 0 from rfl, Nat.zero_mul, Nat.zero_add]
      exact ih
    next => rfl

theorem trim_lead (bytes : Text) : (trimStartMatches bytes).head? ≠ some 48 := by
  intro zero'
  have kept := List.head?_dropWhile_not (· = 48) bytes
  rw [trimStartMatches] at zero'
  rw [zero'] at kept
  cases kept

theorem trim_digits (digits : ∀ byte ∈ bytes, isDigit byte) : ∀ byte ∈ trimStartMatches bytes, isDigit byte :=
  fun byte member => digits byte (List.dropWhile_subset _ member)

theorem trim_spells (denotes : Denotes bytes n) :
    Spells (if trimStartMatches bytes = [] then [48] else trimStartMatches bytes) n ∧ (trimStartMatches bytes ≠ [] ↔ 0 < n) := by
  obtain ⟨-, digits, value⟩ := denotes
  rw [← accumulate_trim] at value
  by_cases none' : trimStartMatches bytes = []
  · rw [none'] at value
    rw [if_pos none', ← value]
    exact ⟨spelling_spells 0, fun some' => absurd none' some', fun positive => absurd positive (by decide)⟩
  · have spells := Spells.of_lead none' (trim_digits digits) value (trim_lead bytes)
    rw [if_neg none']
    refine ⟨spells, fun _ => ?_, fun _ => none'⟩
    have least := accumulate_cons
    apply Nat.pos_of_ne_zero
    rintro rfl
    have zero' : trimStartMatches bytes = [48] := spells.eq
    exact trim_lead bytes (by rw [zero']; rfl)

theorem plain_head {text : Text} {n : Nat} (denotes : Denotes text n) : text.head? ≠ some 45 ∧ text.head? ≠ some 43 := by
  obtain ⟨some', digits, -⟩ := denotes
  cases text with
  | nil => exact absurd rfl some'
  | cons byte rest =>
    have one := digits byte List.mem_cons_self
    refine ⟨fun same => ?_, fun same => ?_⟩ <;> rw [Option.some.inj same] at one <;> exact absurd one (by decide)

theorem signSplit_exponent {text : Text} {v : Int} (exponent : Exponent text v) :
    ∃ n, Denotes (signSplit text).2 n ∧ v = if (signSplit text).1 then -(n : Int) else n := by
  cases exponent with
  | plus denotes => exact ⟨_, denotes, rfl⟩
  | minus denotes => exact ⟨_, denotes, rfl⟩
  | @plain _ n denotes =>
    obtain ⟨noMinus, noPlus⟩ := plain_head denotes
    have same : signSplit text = (false, text) := by
      unfold signSplit
      split
      next => exact absurd rfl noMinus
      next => exact absurd rfl noPlus
      next => rfl
    rw [same]
    exact ⟨n, denotes, rfl⟩

theorem exponent_signSplit {text : Text} {n : Nat} (denotes : Denotes (signSplit text).2 n) :
    Exponent text (if (signSplit text).1 then -(n : Int) else n) := by
  unfold signSplit at *
  split at denotes
  next => exact .minus denotes
  next => exact .plus denotes
  next => exact .plain denotes

theorem not_denoting_iff {text : Text} : text = [] ∨ ¬text.all isDigit ↔ ¬∃ n, Denotes text n := by
  rw [← not_iff_not, not_not, not_or, not_not, List.all_eq_true]
  exact ⟨fun ⟨some', digits⟩ => ⟨_, some', digits, rfl⟩, fun ⟨_, some', digits, _⟩ => ⟨some', digits⟩⟩

theorem parse_stands {text : Text} {v : Int} (exponent : Exponent text v) :
    ∃ self, SignedDecimal.parse text = some self ∧ Stands self v := by
  obtain ⟨n, denotes, rfl⟩ := signSplit_exponent exponent
  obtain ⟨spells, some'⟩ := trim_spells denotes
  simp only [SignedDecimal.parse]
  rw [if_neg fun bad => not_denoting_iff.mp bad ⟨n, denotes⟩]
  refine ⟨_, rfl, ?_, ?_⟩
  · cases (signSplit text).1
    · exact spells
    · rw [if_pos rfl, Int.natAbs_neg]
      exact spells
  · rw [Bool.and_eq_true, decide_eq_true_eq, some']
    cases (signSplit text).1
    · simp
    · simp only [true_and, if_true]
      omega

theorem exponent_of_parse {text : Text} {self : SignedDecimal} (parsed : SignedDecimal.parse text = some self) :
    ∃ v, Exponent text v := by
  simp only [SignedDecimal.parse] at parsed
  split at parsed
  · cases parsed
  next good =>
    obtain ⟨n, denotes⟩ := not_not.mp (fun none' => good (not_denoting_iff.mpr none'))
    exact ⟨_, exponent_signSplit denotes⟩

theorem Stands.nonnegative {self : SignedDecimal} {v : Int} (stands : Stands self v) : self.negative = false ↔ 0 ≤ v := by
  rw [← Bool.not_eq_true, stands.sign, Int.not_lt]

/-- Counts are added and taken away as on the integers. -/
theorem addSignedCount_stands {self : SignedDecimal} {v : Int} (stands : Stands self v) (positive : Bool) (count : Nat) :
    Stands (self.addSignedCount positive count) (if positive then v + count else v - count) := by
  have sign := stands.sign
  have nonneg := stands.nonnegative
  have spells := spelling_spells count
  rw [SignedDecimal.addSignedCount]
  split
  next none' =>
    rw [none']
    simpa using stands
  next some' =>
    dsimp only
    split
    next same =>
      have sum := addMagnitudes_spells stands.magnitude spells (Nat.pos_of_ne_zero some')
      cases positive with
      | true =>
        have above := nonneg.mp (Bool.not_eq_true _ |>.mp same)
        refine ⟨?_, ?_⟩
        · rw [if_pos rfl, show (v + count).natAbs = v.natAbs + count by omega]
          exact sum
        · simp only [if_true, sign]
          omega
      | false =>
        have below := sign.mp (Bool.not_eq_false _ |>.mp same)
        refine ⟨?_, ?_⟩
        · rw [if_neg Bool.false_ne_true, show (v - count).natAbs = v.natAbs + count by omega]
          exact sum
        · simp only [Bool.false_eq_true, if_false, sign]
          omega
    next opposite =>
      have opposite : self.negative = positive := not_not.mp opposite
      have result : (if positive = true then v + (count : Int) else v - count) = if v < 0 then v + count else v - count := by
        rw [← opposite]
        simp only [sign]
      rw [result, compareMagnitudes_eq stands.magnitude spells]
      cases order : compare v.natAbs count with
      | gt =>
        have larger := Nat.compare_eq_gt.mp order
        have difference := subtractMagnitudes_spells stands.magnitude spells (by omega)
        refine ⟨?_, sign.trans ?_⟩
        · refine Eq.mp (congrArg (Spells _) ?_) difference
          split <;> omega
        · split <;> omega
      | eq =>
        have equal := Nat.compare_eq_eq.mp order
        have none' : (if v < 0 then v + (count : Int) else v - count) = 0 := by split <;> omega
        rw [none']
        exact ⟨spelling_spells 0, ⟨nofun, fun less => absurd less (by decide)⟩⟩
      | lt =>
        have smaller := Nat.compare_eq_lt.mp order
        have difference := subtractMagnitudes_spells spells stands.magnitude (by omega)
        refine ⟨?_, ?_⟩
        · refine Eq.mp (congrArg (Spells _) ?_) difference
          split <;> omega
        · rw [Bool.not_eq_true', nonneg]
          split <;> omega

theorem render_spells {self : SignedDecimal} {v : Int} (stands : Stands self v) : SpellsInt self.render v := by
  rw [SignedDecimal.render]
  split
  next negative => exact .inr ⟨stands.sign.mp negative, _, rfl, stands.magnitude⟩
  next positive => exact .inl ⟨stands.nonnegative.mp (Bool.not_eq_true _ |>.mp positive), stands.magnitude⟩

end Rue.Proofs.Air.DecimalArithmetic
