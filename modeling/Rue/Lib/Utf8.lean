import Mathlib.Algebra.Order.Ring.Int
import Mathlib.Data.List.Basic

/-! UTF-8 one scalar at a time: what may follow a first byte, the outcome of
reading one scalar, and validation and lossy conversion of a whole text. -/

namespace Rue.Lib.Utf8

def between (low high : Nat) (b : UInt8) : Bool := low ≤ b.toNat && b.toNat ≤ high

/-- What may follow a first byte, one test for each further byte. -/
def followers (first : UInt8) : Option (List (UInt8 → Bool)) :=
  let lead := first.toNat
  let tail := between 0x80 0xBF
  if lead < 0x80 then some []
  else if lead < 0xC2 then none
  else if lead < 0xE0 then some [tail]
  else if lead < 0xF0 then
    some [between (if lead = 0xE0 then 0xA0 else 0x80) (if lead = 0xED then 0x9F else 0xBF), tail]
  else if lead < 0xF5 then
    some [between (if lead = 0xF0 then 0x90 else 0x80) (if lead = 0xF4 then 0x8F else 0xBF), tail, tail]
  else none

/-- The outcome of reading one scalar, with the bytes that were read. -/
inductive Step where
  | nothing
  | scalar (count : Nat)
  | illFormed (count : Nat)
  | incomplete
  deriving DecidableEq

def follow : List (UInt8 → Bool) → List UInt8 → Nat → Step
  | [], _, count => .scalar count
  | _ :: _, [], _ => .incomplete
  | test :: tests, b :: rest, count => if test b then follow tests rest (count + 1) else .illFormed count

def scan : List UInt8 → Step
  | [] => .nothing
  | first :: rest =>
    match followers first with
    | none => .illFormed 1
    | some tests => follow tests rest 1

section Scan

variable {tests : List (UInt8 → Bool)} {bytes more : List UInt8} {count n : Nat}

theorem follow_scalar (read : follow tests bytes count = .scalar n) :
    n = count + tests.length ∧ tests.length ≤ bytes.length := by
  induction tests generalizing bytes count with
  | nil =>
    cases read
    exact ⟨rfl, Nat.zero_le _⟩
  | cons test tests ih =>
    cases bytes with
    | nil => cases read
    | cons b rest =>
      rw [follow] at read
      split at read
      next =>
        obtain ⟨same, within⟩ := ih read
        exact ⟨by rw [same, List.length_cons]; omega, Nat.succ_le_succ within⟩
      next => cases read

theorem follow_illFormed (read : follow tests bytes count = .illFormed n) : count ≤ n ∧ n < count + bytes.length := by
  induction tests generalizing bytes count with
  | nil => cases read
  | cons test tests ih =>
    cases bytes with
    | nil => cases read
    | cons b rest =>
      rw [follow] at read
      rw [List.length_cons]
      split at read
      next =>
        obtain ⟨low, high⟩ := ih read
        omega
      next =>
        cases read
        omega

theorem scan_scalar (read : scan bytes = .scalar n) : 0 < n ∧ n ≤ bytes.length := by
  cases bytes with
  | nil => cases read
  | cons first rest =>
    rw [scan] at read
    rw [List.length_cons]
    split at read
    next => cases read
    next =>
      obtain ⟨same, within⟩ := follow_scalar read
      omega

theorem scan_illFormed (read : scan bytes = .illFormed n) : 0 < n ∧ n ≤ bytes.length := by
  cases bytes with
  | nil => cases read
  | cons first rest =>
    rw [scan] at read
    rw [List.length_cons]
    split at read
    next =>
      cases read
      omega
    next =>
      have := follow_illFormed read
      omega

theorem follow_append (complete : follow tests bytes count ≠ .incomplete) :
    follow tests (bytes ++ more) count = follow tests bytes count := by
  induction tests generalizing bytes count with
  | nil => rfl
  | cons test tests ih =>
    cases bytes with
    | nil => exact absurd rfl complete
    | cons b rest =>
      rw [follow] at complete
      rw [List.cons_append, follow, follow]
      split
      next passed =>
        rw [if_pos passed] at complete
        exact ih complete
      next => rfl

/-- What is read does not depend on what comes after it. -/
theorem scan_append (some' : scan bytes ≠ .nothing) (complete : scan bytes ≠ .incomplete) :
    scan (bytes ++ more) = scan bytes := by
  cases bytes with
  | nil => exact absurd rfl some'
  | cons first rest =>
    rw [scan] at complete
    rw [List.cons_append, scan, scan]
    split
    next => rfl
    next tests allowed =>
      rw [allowed] at complete
      exact follow_append complete

theorem scan_nothing : scan bytes = .nothing ↔ bytes = [] := by
  constructor
  · intro read
    cases bytes with
    | nil => rfl
    | cons first rest =>
      rw [scan] at read
      split at read
      next => cases read
      next tests _ =>
        exfalso
        cases tests with
        | nil => cases read
        | cons test tests =>
          have never : ∀ tests bytes count, follow tests bytes count ≠ .nothing := by
            intro tests
            induction tests with
            | nil =>
              intro bytes count same
              cases same
            | cons test tests ih =>
              intro bytes count same
              cases bytes with
              | nil => cases same
              | cons b rest =>
                rw [follow] at same
                split at same
                next => exact ih _ _ same
                next => cases same
          exact never _ _ _ read
  · rintro rfl
    rfl

end Scan

/-- The outcome of validating a text: how much of it is valid, and how long the
sequence after that is which can begin no scalar. -/
inductive Validation where
  | valid
  | invalid (validUpTo : Nat) (errorLen : Option Nat)
  deriving DecidableEq

def Validation.after (count : Nat) : Validation → Validation
  | .valid => .valid
  | .invalid validUpTo errorLen => .invalid (count + validUpTo) errorLen

def fromUtf8 (bytes : List UInt8) : Validation :=
  match _read : scan bytes with
  | .nothing => .valid
  | .scalar count => (fromUtf8 (bytes.drop count)).after count
  | .illFormed count => .invalid 0 (some count)
  | .incomplete => .invalid 0 none
termination_by bytes.length
decreasing_by
  have := scan_scalar _read
  rw [List.length_drop]
  omega

def replacement : List UInt8 := [0xEF, 0xBF, 0xBD]

/-- Every sequence that can begin no scalar becomes one replacement. -/
def fromUtf8Lossy (bytes : List UInt8) : List UInt8 :=
  match _read : scan bytes with
  | .nothing => []
  | .scalar count => bytes.take count ++ fromUtf8Lossy (bytes.drop count)
  | .illFormed count => replacement ++ fromUtf8Lossy (bytes.drop count)
  | .incomplete => replacement
termination_by bytes.length
decreasing_by
  · have := scan_scalar _read
    rw [List.length_drop]
    omega
  · have := scan_illFormed _read
    rw [List.length_drop]
    omega

section Whole

variable {bytes more : List UInt8} {count : Nat}

theorem fromUtf8_eq (bytes : List UInt8) : fromUtf8 bytes =
    match scan bytes with
    | .nothing => .valid
    | .scalar count => (fromUtf8 (bytes.drop count)).after count
    | .illFormed count => .invalid 0 (some count)
    | .incomplete => .invalid 0 none := by
  rw [fromUtf8]
  split
  next read => rw [read]
  next read => rw [read]
  next read => rw [read]
  next read => rw [read]

theorem lossy_eq (bytes : List UInt8) : fromUtf8Lossy bytes =
    match scan bytes with
    | .nothing => []
    | .scalar count => bytes.take count ++ fromUtf8Lossy (bytes.drop count)
    | .illFormed count => replacement ++ fromUtf8Lossy (bytes.drop count)
    | .incomplete => replacement := by
  rw [fromUtf8Lossy]
  split
  next read => rw [read]
  next read => rw [read]
  next read => rw [read]
  next read => rw [read]

@[simp] theorem lossy_nil : fromUtf8Lossy [] = [] := by
  rw [lossy_eq]
  rfl

theorem lossy_scalar (read : scan bytes = .scalar count) :
    fromUtf8Lossy (bytes ++ more) = bytes.take count ++ fromUtf8Lossy (bytes.drop count ++ more) := by
  have within := (scan_scalar read).2
  have same := @scan_append bytes more (by rw [read]; exact nofun) (by rw [read]; exact nofun)
  rw [lossy_eq (bytes ++ more), same, read]
  simp only [List.take_append_of_le_length within, List.drop_append_of_le_length within]

theorem lossy_illFormed (read : scan bytes = .illFormed count) :
    fromUtf8Lossy (bytes ++ more) = replacement ++ fromUtf8Lossy (bytes.drop count ++ more) := by
  have within := (scan_illFormed read).2
  have same := @scan_append bytes more (by rw [read]; exact nofun) (by rw [read]; exact nofun)
  rw [lossy_eq (bytes ++ more), same, read]
  simp only [List.drop_append_of_le_length within]

/-- What a text converts to in front of another, by the outcome of validating it. -/
def Converts (bytes more : List UInt8) : Validation → Prop
  | .valid => fromUtf8Lossy (bytes ++ more) = bytes ++ fromUtf8Lossy more
  | .invalid validUpTo (some errorLen) => 0 < errorLen ∧ validUpTo + errorLen ≤ bytes.length ∧
      fromUtf8Lossy (bytes ++ more) =
        bytes.take validUpTo ++ replacement ++ fromUtf8Lossy (bytes.drop (validUpTo + errorLen) ++ more)
  | .invalid validUpTo none => fromUtf8Lossy bytes = bytes.take validUpTo ++ replacement

theorem converts (bytes more : List UInt8) : Converts bytes more (fromUtf8 bytes) := by
  induction bytes using fromUtf8.induct with
  | case1 bytes read =>
    rw [fromUtf8_eq, read, scan_nothing.mp read]
    rfl
  | case2 bytes count read ih =>
    have within := (scan_scalar read).2
    have first : fromUtf8 bytes = (fromUtf8 (bytes.drop count)).after count := by rw [fromUtf8_eq bytes, read]
    rw [first]
    cases rest : fromUtf8 (bytes.drop count) with
    | valid =>
      rw [rest] at ih
      refine (lossy_scalar read).trans ?_
      rw [ih, ← List.append_assoc, List.take_append_drop]
    | invalid validUpTo errorLen =>
      rw [rest] at ih
      have joined : bytes.take (count + validUpTo) = bytes.take count ++ (bytes.drop count).take validUpTo := List.take_add
      cases errorLen with
      | none =>
        have alone := @lossy_scalar bytes [] count read
        rw [List.append_nil, List.append_nil] at alone
        refine alone.trans ?_
        rw [show fromUtf8Lossy (bytes.drop count) = _ from ih, joined, List.append_assoc]
      | some errorLen =>
        obtain ⟨positive, inside, converted⟩ := ih
        rw [List.length_drop] at inside
        refine ⟨positive, by omega, ?_⟩
        rw [lossy_scalar read, converted, joined, List.drop_drop, Nat.add_assoc]
        simp only [List.append_assoc]
  | case3 bytes count read =>
    have first : fromUtf8 bytes = .invalid 0 (some count) := by rw [fromUtf8_eq bytes, read]
    rw [first]
    have within := scan_illFormed read
    refine ⟨within.1, by omega, ?_⟩
    rw [lossy_illFormed read, Nat.zero_add, List.take_zero, List.nil_append]
  | case4 bytes read =>
    have first : fromUtf8 bytes = .invalid 0 none := by rw [fromUtf8_eq bytes, read]
    rw [first]
    change fromUtf8Lossy bytes = _
    rw [lossy_eq, read]
    rfl

theorem fromUtf8_upTo {validUpTo : Nat} {errorLen : Option Nat} (invalid : fromUtf8 bytes = .invalid validUpTo errorLen) :
    validUpTo ≤ bytes.length := by
  induction bytes using fromUtf8.induct generalizing validUpTo with
  | case1 bytes read => rw [fromUtf8_eq, read] at invalid; cases invalid
  | case2 bytes count read ih =>
    have within := (scan_scalar read).2
    have first : fromUtf8 bytes = (fromUtf8 (bytes.drop count)).after count := by rw [fromUtf8_eq bytes, read]
    rw [first] at invalid
    cases rest : fromUtf8 (bytes.drop count) with
    | valid => rw [rest] at invalid; cases invalid
    | invalid upTo errorLen' =>
      rw [rest] at invalid
      cases invalid
      have further := ih rest
      rw [List.length_drop] at further
      omega
  | case3 bytes count read =>
    rw [fromUtf8_eq, read] at invalid
    cases invalid
    exact Nat.zero_le _
  | case4 bytes read =>
    rw [fromUtf8_eq, read] at invalid
    cases invalid
    exact Nat.zero_le _

theorem Validation.after_valid {outcome : Validation} : outcome.after count = .valid ↔ outcome = .valid := by
  cases outcome with
  | valid => exact Iff.rfl
  | invalid => exact ⟨nofun, nofun⟩

theorem fromUtf8_scalar (more : List UInt8) (read : scan bytes = .scalar count) :
    fromUtf8 bytes = (fromUtf8 (bytes.drop count)).after count ∧
      fromUtf8 (bytes ++ more) = (fromUtf8 (bytes.drop count ++ more)).after count := by
  have same := @scan_append bytes more (by rw [read]; exact nofun) (by rw [read]; exact nofun)
  refine ⟨by rw [fromUtf8_eq bytes, read], ?_⟩
  rw [fromUtf8_eq (bytes ++ more), same, read]
  simp only [List.drop_append_of_le_length (scan_scalar read).2]

theorem fromUtf8_append (valid : fromUtf8 bytes = .valid) : fromUtf8 (bytes ++ more) = .valid ↔ fromUtf8 more = .valid := by
  induction bytes using fromUtf8.induct with
  | case1 bytes read =>
    rw [scan_nothing.mp read]
    rfl
  | case2 bytes count read ih =>
    obtain ⟨first, both⟩ := fromUtf8_scalar more read
    rw [first, Validation.after_valid] at valid
    rw [both, Validation.after_valid]
    exact ih valid
  | case3 bytes count read => rw [fromUtf8_eq, read] at valid; cases valid
  | case4 bytes read => rw [fromUtf8_eq, read] at valid; cases valid

/-- An error that was not for want of bytes stays one. -/
theorem fromUtf8_append_error {validUpTo errorLen : Nat} (invalid : fromUtf8 bytes = .invalid validUpTo (some errorLen)) :
    fromUtf8 (bytes ++ more) ≠ .valid := by
  induction bytes using fromUtf8.induct generalizing validUpTo with
  | case1 bytes read => rw [fromUtf8_eq, read] at invalid; cases invalid
  | case2 bytes count read ih =>
    obtain ⟨first, both⟩ := fromUtf8_scalar more read
    rw [first] at invalid
    rw [both]
    intro valid
    cases rest : fromUtf8 (bytes.drop count) with
    | valid => rw [rest] at invalid; cases invalid
    | invalid upTo errorLen' =>
      rw [rest] at invalid
      cases invalid
      exact ih rest (Validation.after_valid.mp valid)
  | case3 bytes count read =>
    have same := @scan_append bytes more (by rw [read]; exact nofun) (by rw [read]; exact nofun)
    rw [fromUtf8_eq (bytes ++ more), same, read]
    exact nofun
  | case4 bytes read => rw [fromUtf8_eq, read] at invalid; cases invalid

end Whole

def Tail (b : UInt8) : Prop := 0x80 ≤ b.toNat ∧ b.toNat ≤ 0xBF

/-- The byte sequences that are one scalar: no overlong form, no surrogate,
nothing past the last plane. -/
inductive Scalar : List UInt8 → Prop where
  | one {a} (lead : a.toNat < 0x80) : Scalar [a]
  | two {a b} (low : 0xC2 ≤ a.toNat) (high : a.toNat < 0xE0) (second : Tail b) : Scalar [a, b]
  | three {a b c} (low : 0xE0 ≤ a.toNat) (high : a.toNat < 0xF0) (second : Tail b) (third : Tail c)
      (shortest : a.toNat = 0xE0 → 0xA0 ≤ b.toNat) (scalar : a.toNat = 0xED → b.toNat < 0xA0) : Scalar [a, b, c]
  | four {a b c d} (low : 0xF0 ≤ a.toNat) (high : a.toNat < 0xF5) (second : Tail b) (third : Tail c) (fourth : Tail d)
      (shortest : a.toNat = 0xF0 → 0x90 ≤ b.toNat) (inside : a.toNat = 0xF4 → b.toNat < 0x90) : Scalar [a, b, c, d]

theorem between_iff {low high : Nat} {b : UInt8} : between low high b ↔ low ≤ b.toNat ∧ b.toNat ≤ high := by
  rw [between, Bool.and_eq_true, decide_eq_true_eq, decide_eq_true_eq]

theorem Scalar.scan {bytes : List UInt8} (scalar : Scalar bytes) (more : List UInt8) :
    scan (bytes ++ more) = .scalar bytes.length := by
  cases scalar with
  | one lead => simp [Utf8.scan, followers, lead, follow]
  | two low high second =>
    have tail := between_iff.mpr second
    simp only [List.cons_append, List.nil_append, Utf8.scan, followers]
    rw [if_neg (by omega), if_neg (by omega), if_pos high]
    simp [follow, tail]
  | @three a b c low high second third shortest scalar =>
    obtain ⟨start, fin⟩ := second
    have tail := between_iff.mpr third
    have inside : between (if a.toNat = 0xE0 then 0xA0 else 0x80) (if a.toNat = 0xED then 0x9F else 0xBF) b := by
      rw [between_iff]
      split <;> split <;> omega
    simp only [List.cons_append, List.nil_append, Utf8.scan, followers]
    rw [if_neg (by omega), if_neg (by omega), if_neg (by omega), if_pos high]
    simp [follow, tail, inside]
  | @four a b c d low high second third fourth shortest inside =>
    obtain ⟨start, fin⟩ := second
    have tail := between_iff.mpr third
    have last := between_iff.mpr fourth
    have inside : between (if a.toNat = 0xF0 then 0x90 else 0x80) (if a.toNat = 0xF4 then 0x8F else 0xBF) b := by
      rw [between_iff]
      split <;> split <;> omega
    simp only [List.cons_append, List.nil_append, Utf8.scan, followers]
    rw [if_neg (by omega), if_neg (by omega), if_neg (by omega), if_neg (by omega), if_pos high]
    simp [follow, tail, last, inside]

theorem follow_tests {tests : List (UInt8 → Bool)} {bytes : List UInt8} {count n : Nat}
    (read : follow tests bytes count = .scalar n) : List.Forall₂ (fun test b => test b) tests (bytes.take tests.length) := by
  induction tests generalizing bytes count with
  | nil => exact .nil
  | cons test tests ih =>
    cases bytes with
    | nil => cases read
    | cons b rest =>
      rw [follow] at read
      split at read
      next passed => exact .cons passed (ih read)
      next => cases read

theorem scalar_of_scan {bytes : List UInt8} {n : Nat} (read : scan bytes = .scalar n) : Scalar (bytes.take n) := by
  cases bytes with
  | nil => cases read
  | cons first rest =>
    rw [scan] at read
    split at read
    next => cases read
    next tests allowed =>
      obtain ⟨same, _⟩ := follow_scalar read
      have passed := follow_tests read
      subst same
      rw [Nat.add_comm, List.take_succ_cons]
      generalize List.take tests.length rest = following at passed
      simp only [followers] at allowed
      split at allowed
      next lead =>
        cases allowed
        cases passed
        exact .one lead
      next ascii =>
        split at allowed
        next => cases allowed
        next low =>
          split at allowed
          next high =>
            cases allowed
            cases passed with
            | cons second none' =>
              cases none'
              exact .two (Nat.le_of_not_lt low) high (between_iff.mp second)
          next low =>
            split at allowed
            next high =>
              cases allowed
              cases passed with
              | cons second passed =>
                cases passed with
                | cons third none' =>
                  cases none'
                  have bounds := between_iff.mp second
                  refine .three (Nat.le_of_not_lt low) high ?_ (between_iff.mp third) ?_ ?_
                  · split at bounds <;> split at bounds <;> exact ⟨by omega, by omega⟩
                  · intro lead
                    rw [if_pos lead] at bounds
                    exact bounds.1
                  · intro lead
                    rw [if_pos lead] at bounds
                    exact Nat.lt_succ_of_le bounds.2
            next low =>
              split at allowed
              next high =>
                cases allowed
                cases passed with
                | cons second passed =>
                  cases passed with
                  | cons third passed =>
                    cases passed with
                    | cons fourth none' =>
                      cases none'
                      have bounds := between_iff.mp second
                      refine .four (Nat.le_of_not_lt low) high ?_ (between_iff.mp third) (between_iff.mp fourth) ?_ ?_
                      · split at bounds <;> split at bounds <;> exact ⟨by omega, by omega⟩
                      · intro lead
                        rw [if_pos lead] at bounds
                        exact bounds.1
                      · intro lead
                        rw [if_pos lead] at bounds
                        exact Nat.lt_succ_of_le bounds.2
              next => cases allowed

theorem encoded_scalar (c : Char) : Scalar (String.utf8EncodeChar c) := by
  have valid : c.val.toNat < 0xD800 ∨ 0xDFFF < c.val.toNat ∧ c.val.toNat < 0x110000 := c.valid
  have byte : ∀ n : Nat, n < 256 → (UInt8.ofNat n).toNat = n := by
    intro n small
    rw [UInt8.toNat_ofNat']
    exact Nat.mod_eq_of_lt small
  rw [String.utf8EncodeChar]
  generalize c.val.toNat = v at valid
  split
  next =>
    refine .one ?_
    rw [byte _ (by omega)]
    omega
  next =>
    split
    next =>
      refine .two ?_ ?_ ⟨?_, ?_⟩
      all_goals rw [byte _ (by omega)]; omega
    next =>
      split
      next =>
        refine .three ?_ ?_ ⟨?_, ?_⟩ ⟨?_, ?_⟩ ?_ ?_
        all_goals simp only [byte (v / 4096 % 16 + 224) (by omega), byte (v / 64 % 64 + 128) (by omega), byte (v % 64 + 128) (by omega)]
        all_goals omega
      next =>
        refine .four ?_ ?_ ⟨?_, ?_⟩ ⟨?_, ?_⟩ ⟨?_, ?_⟩ ?_ ?_
        all_goals simp only [byte (v / 262144 % 8 + 240) (by omega), byte (v / 4096 % 64 + 128) (by omega),
          byte (v / 64 % 64 + 128) (by omega), byte (v % 64 + 128) (by omega)]
        all_goals omega

/-- Every number that is not half of a pair and inside the planes is a character. -/
theorem char_of_code (code : Nat) (valid : code < 0xD800 ∨ 0xDFFF < code ∧ code < 0x110000) : ∃ c : Char, c.val.toNat = code := by
  refine ⟨⟨UInt32.ofNat code, ?_⟩, ?_⟩
  · rw [UInt32.isValidChar, UInt32.toNat_ofNat', Nat.mod_eq_of_lt (by omega)]
    exact valid
  · exact (UInt32.toNat_ofNat' ..).trans (Nat.mod_eq_of_lt (by omega))

theorem Scalar.encoded {bytes : List UInt8} (scalar : Scalar bytes) : ∃ c : Char, String.utf8EncodeChar c = bytes := by
  have byte : ∀ (n : Nat) (b : UInt8), n = b.toNat → UInt8.ofNat n = b := by
    rintro n b rfl
    exact UInt8.ofNat_toNat
  cases scalar with
  | @one a lead =>
    obtain ⟨c, code⟩ := char_of_code a.toNat (by omega)
    refine ⟨c, ?_⟩
    rw [String.utf8EncodeChar]
    simp only [code]
    rw [if_pos (by omega), byte _ a rfl]
  | @two a b low high second =>
    obtain ⟨start, fin⟩ := second
    obtain ⟨c, code⟩ := char_of_code (a.toNat % 32 * 64 + b.toNat % 64) (by omega)
    refine ⟨c, ?_⟩
    rw [String.utf8EncodeChar]
    simp only [code]
    rw [if_neg (by omega), if_pos (by omega), byte _ a (by omega), byte _ b (by omega)]
  | @three a b c low high second third shortest scalar =>
    obtain ⟨start, fin⟩ := second
    obtain ⟨start', fin'⟩ := third
    obtain ⟨char, code⟩ := char_of_code (a.toNat % 16 * 4096 + b.toNat % 64 * 64 + c.toNat % 64) (by omega)
    refine ⟨char, ?_⟩
    rw [String.utf8EncodeChar]
    simp only [code]
    rw [if_neg (by omega), if_neg (by omega), if_pos (by omega), byte _ a (by omega), byte _ b (by omega), byte _ c (by omega)]
  | @four a b c d low high second third fourth shortest inside =>
    obtain ⟨start, fin⟩ := second
    obtain ⟨start', fin'⟩ := third
    obtain ⟨start'', fin''⟩ := fourth
    obtain ⟨char, code⟩ :=
      char_of_code (a.toNat % 8 * 262144 + b.toNat % 64 * 4096 + c.toNat % 64 * 64 + d.toNat % 64) (by omega)
    refine ⟨char, ?_⟩
    rw [String.utf8EncodeChar]
    simp only [code]
    rw [if_neg (by omega), if_neg (by omega), if_neg (by omega), byte _ a (by omega), byte _ b (by omega),
      byte _ c (by omega), byte _ d (by omega)]

/-- Valid texts are exactly the encodings of characters. -/
theorem valid_iff_encoded {bytes : List UInt8} :
    fromUtf8 bytes = .valid ↔ ∃ chars : List Char, bytes = chars.flatMap String.utf8EncodeChar := by
  constructor
  · intro valid
    induction bytes using fromUtf8.induct with
    | case1 bytes read => exact ⟨[], scan_nothing.mp read⟩
    | case2 bytes count read ih =>
      have first : fromUtf8 bytes = (fromUtf8 (bytes.drop count)).after count := by rw [fromUtf8_eq bytes, read]
      rw [first, Validation.after_valid] at valid
      obtain ⟨chars, rest⟩ := ih valid
      obtain ⟨c, encoded⟩ := (scalar_of_scan read).encoded
      refine ⟨c :: chars, ?_⟩
      rw [List.flatMap_cons, encoded, ← rest, List.take_append_drop]
    | case3 bytes count read => rw [fromUtf8_eq, read] at valid; cases valid
    | case4 bytes read => rw [fromUtf8_eq, read] at valid; cases valid
  · rintro ⟨chars, rfl⟩
    induction chars with
    | nil =>
      rw [fromUtf8_eq]
      rfl
    | cons c chars ih =>
      rw [List.flatMap_cons, fromUtf8_eq, (encoded_scalar c).scan]
      simp only [List.drop_left]
      rw [Validation.after_valid]
      exact ih

end Rue.Lib.Utf8
