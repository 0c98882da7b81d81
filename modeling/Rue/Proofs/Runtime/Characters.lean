import Rue.Lib.Utf8Scalars
import Rue.Runtime.Characters

/-! The loops over the scalars of a byte string: the lossy one takes the text
apart into characters and replacements, the strict one stops where the first
replacement would be. -/

namespace Rue.Proofs.Runtime
open Rue.Runtime Rue.Runtime.Characters Rue.Lib Rue.Lib.Utf8

namespace Characters

variable {bytes : List UInt8} {i : Nat}

theorem byteAt_ok (inside : i < bytes.length) : byteAt bytes i = .ok bytes[i] := by
  rw [byteAt, List.getElem?_eq_getElem inside]

set_option maxRecDepth 4096 in
theorem isContinuation_eq (b : UInt8) : isContinuation b = between 0x80 0xBF b := by
  have all : ∀ n < 256, decide (n &&& 0xC0 = 0x80) = (decide (0x80 ≤ n) && decide (n ≤ 0xBF)) := by decide
  exact all b.toNat b.toNat_lt

theorem extend_eq (cp : Nat) (b : UInt8) : extend cp b = cp * 64 + b.toNat % 64 := by
  have low : b.toNat &&& 0x3F = b.toNat % 64 := Nat.and_two_pow_sub_one_eq_mod b.toNat 6
  have small : b.toNat % 64 < 2 ^ 6 := Nat.mod_lt _ (by decide)
  rw [extend, low, ← Nat.shiftLeft_add_eq_or_of_lt small, Nat.shiftLeft_eq]

section Followers
variable {b : UInt8}

theorem followers_two (low : 0xC2 ≤ b.toNat) (high : b.toNat < 0xE0) : followers b = some [between 0x80 0xBF] := by
  simp only [followers]
  rw [if_neg (by omega), if_neg (by omega), if_pos high]

theorem followers_three (low : 0xE0 ≤ b.toNat) (high : b.toNat < 0xF0) : followers b =
    some [between (if b.toNat = 0xE0 then 0xA0 else 0x80) (if b.toNat = 0xED then 0x9F else 0xBF), between 0x80 0xBF] := by
  simp only [followers]
  rw [if_neg (by omega), if_neg (by omega), if_neg (by omega), if_pos high]

theorem followers_four (low : 0xF0 ≤ b.toNat) (high : b.toNat < 0xF5) : followers b =
    some [between (if b.toNat = 0xF0 then 0x90 else 0x80) (if b.toNat = 0xF4 then 0x8F else 0xBF), between 0x80 0xBF,
      between 0x80 0xBF] := by
  simp only [followers]
  rw [if_neg (by omega), if_neg (by omega), if_neg (by omega), if_neg (by omega), if_pos high]

theorem followers_none (outside : 0x80 ≤ b.toNat ∧ b.toNat < 0xC2 ∨ 0xF5 ≤ b.toNat) : followers b = none := by
  simp only [followers]
  rw [if_neg (by omega)]
  by_cases low : b.toNat < 0xC2
  · rw [if_pos low]
  · rw [if_neg low, if_neg (by omega), if_neg (by omega), if_neg (by omega)]

/-- A row and what the table of well-formed sequences lets follow. -/
def RowFits (b : UInt8) (row : Utf8Lead) : Prop :=
  (row.width = 2 ∨ row.width = 3 ∨ row.width = 4) ∧ row.scalarBits = b.toNat % 2 ^ (7 - row.width) ∧
    followers b = some (row.acceptsFirstContinuation :: List.replicate (row.width - 2) (between 0x80 0xBF))

theorem lead_fits (high : ¬b.toNat < 0x80) : lead b = none ∧ followers b = none ∨ ∃ row, lead b = some row ∧ RowFits b row := by
  have bits : ∀ k, k ≤ 7 → b.toNat &&& (0x7F >>> k) = b.toNat % 2 ^ (7 - k) := by
    intro k few
    have all : ∀ k ≤ 7, 0x7F >>> k = 2 ^ (7 - k) - 1 := by decide
    rw [← Nat.and_two_pow_sub_one_eq_mod, all k few]
  have two := bits 2 (by decide)
  have three := bits 3 (by decide)
  have four := bits 4 (by decide)
  simp only [lead]
  by_cases first : 0xC2 ≤ b.toNat ∧ b.toNat ≤ 0xDF
  · rw [if_pos first]
    exact .inr ⟨_, rfl, .inl rfl, two, followers_two first.1 (by omega)⟩
  rw [if_neg first]
  by_cases in3 : 0xE0 ≤ b.toNat ∧ b.toNat < 0xF0
  · have follow := followers_three in3.1 in3.2
    by_cases lowest : b.toNat = 0xE0
    · rw [if_pos lowest, if_neg (by omega)] at follow
      rw [if_pos lowest]
      exact .inr ⟨_, rfl, .inr (.inl rfl), three, follow⟩
    · rw [if_neg lowest] at follow
      rw [if_neg lowest]
      by_cases surrogate : b.toNat = 0xED
      · rw [if_pos surrogate] at follow
        rw [if_neg (by omega), if_pos surrogate]
        exact .inr ⟨_, rfl, .inr (.inl rfl), three, follow⟩
      · rw [if_neg surrogate] at follow
        rw [if_neg surrogate]
        by_cases early : 0xE1 ≤ b.toNat ∧ b.toNat ≤ 0xEC
        · rw [if_pos early]
          exact .inr ⟨_, rfl, .inr (.inl rfl), three, follow⟩
        · rw [if_neg early, if_pos (by omega)]
          exact .inr ⟨_, rfl, .inr (.inl rfl), three, follow⟩
  rw [if_neg (by omega), if_neg (by omega), if_neg (by omega), if_neg (by omega)]
  by_cases in4 : 0xF0 ≤ b.toNat ∧ b.toNat < 0xF5
  · have follow := followers_four in4.1 in4.2
    by_cases lowest : b.toNat = 0xF0
    · rw [if_pos lowest, if_neg (by omega)] at follow
      rw [if_pos lowest]
      exact .inr ⟨_, rfl, .inr (.inr rfl), four, follow⟩
    · rw [if_neg lowest] at follow
      rw [if_neg lowest]
      by_cases highest : b.toNat = 0xF4
      · rw [if_pos highest] at follow
        rw [if_neg (by omega), if_pos highest]
        exact .inr ⟨_, rfl, .inr (.inr rfl), four, follow⟩
      · rw [if_neg highest] at follow
        rw [if_pos (by omega)]
        exact .inr ⟨_, rfl, .inr (.inr rfl), four, follow⟩
  rw [if_neg (by omega), if_neg (by omega), if_neg (by omega)]
  exact .inl ⟨rfl, followers_none (by omega)⟩

end Followers

def gather (cp : Nat) (tail : List UInt8) : Nat := tail.foldl (fun cp b => cp * 64 + b.toNat % 64) cp

theorem drop_cons (inside : i < bytes.length) : bytes.drop i = bytes[i] :: bytes.drop (i + 1) :=
  List.drop_eq_getElem_cons inside

theorem strictTail_eq {width left k cp : Nat} (within : i + k + left ≤ bytes.length) :
    strictTail bytes i width left k cp =
      match follow (List.replicate left (between 0x80 0xBF)) (bytes.drop (i + k)) k with
      | .scalar _ => .ok (gather cp ((bytes.drop (i + k)).take left), width)
      | _ => .error .invalidUtf8 := by
  induction left generalizing k cp with
  | zero => rfl
  | succ left ih =>
    have inside : i + k < bytes.length := by omega
    rw [strictTail, byteAt_ok inside, Trap.ok_bind, drop_cons inside, List.replicate_succ, follow, ← isContinuation_eq]
    cases isContinuation bytes[i + k] with
    | true =>
      simp only [Bool.not_true, Bool.false_eq_true, if_false, if_true]
      rw [ih (by omega), extend_eq]
      rfl
    | false => rfl

theorem lossyTail_eq {width left k cp : Nat} (within : i + k ≤ bytes.length) :
    lossyTail bytes i width left k cp =
      match follow (List.replicate left (between 0x80 0xBF)) (bytes.drop (i + k)) k with
      | .scalar _ => .ok (gather cp ((bytes.drop (i + k)).take left), width)
      | .illFormed n => .ok (fffd, n)
      | _ => .ok (fffd, bytes.length - i) := by
  induction left generalizing k cp with
  | zero => rfl
  | succ left ih =>
    rw [lossyTail]
    split
    next beyond =>
      rw [List.drop_of_length_le beyond, List.replicate_succ]
      have last : k = bytes.length - i := by omega
      rw [last]
      rfl
    next more =>
      have inside : i + k < bytes.length := by omega
      rw [byteAt_ok inside, Trap.ok_bind, drop_cons inside, List.replicate_succ, follow, ← isContinuation_eq]
      cases isContinuation bytes[i + k] with
      | true =>
        simp only [Bool.not_true, Bool.false_eq_true, if_false, if_true]
        rw [ih (by omega), extend_eq]
        rfl
      | false => rfl

theorem code_row {a b : UInt8} {tail : List UInt8} {row : Utf8Lead} (fits : RowFits a row) (length : tail.length = row.width - 2) :
    code (a :: b :: tail) = gather (extend row.scalarBits b) tail := by
  obtain ⟨wide, bits, -⟩ := fits
  have shift : 6 - (b :: tail).length = 7 - row.width := by
    rw [List.length_cons]
    omega
  rw [code, if_neg (List.cons_ne_nil b tail), List.foldl_cons, shift, extend_eq, bits, gather]

/-- The code point of a sequence that is all there, and its width. -/
theorem code_whole {a b : UInt8} {tail : List UInt8} {row : Utf8Lead} {n : Nat} (fits : RowFits a row)
    (read : follow (List.replicate (row.width - 2) (between 0x80 0xBF)) tail 2 = .scalar n) :
    code ((a :: b :: tail).take n) = gather (extend row.scalarBits b) (tail.take (row.width - 2)) ∧ n = row.width := by
  obtain ⟨count, within⟩ := follow_scalar read
  rw [List.length_replicate] at count within
  have wide := fits.1
  have length : (tail.take (row.width - 2)).length = row.width - 2 := by
    rw [List.length_take]
    omega
  refine ⟨?_, by omega⟩
  rw [count, Nat.add_comm, List.take_succ_cons, List.take_succ_cons, code_row fits length]

theorem scan_row {a : UInt8} {rest : List UInt8} {row : Utf8Lead} (fits : RowFits a row) : scan (a :: rest) =
    follow (row.acceptsFirstContinuation :: List.replicate (row.width - 2) (between 0x80 0xBF)) rest 1 := by
  rw [scan, fits.2.2]

theorem scan_ascii {a : UInt8} {rest : List UInt8} (low : a.toNat < 0x80) : scan (a :: rest) = .scalar 1 := by
  have none : followers a = some [] := by
    simp only [followers]
    rw [if_pos low]
  rw [scan, none]
  rfl

theorem scan_foreign {a : UInt8} {rest : List UInt8} (none' : followers a = none) : scan (a :: rest) = .illFormed 1 := by
  rw [scan, none']

def lossyStep (rest : List UInt8) : Nat × Nat :=
  match scan rest with
  | .scalar n => (code (rest.take n), n)
  | .illFormed n => (fffd, n)
  | _ => (fffd, rest.length)

def strictStep (rest : List UInt8) : Except Trap (Nat × Nat) :=
  match scan rest with
  | .scalar n => .ok (code (rest.take n), n)
  | _ => .error .invalidUtf8

theorem lossy_decodes (inside : i < bytes.length) : decodeUtf8LossyAt bytes i = .ok (lossyStep (bytes.drop i)) := by
  rw [decodeUtf8LossyAt, if_neg (Nat.not_le.mpr inside), byteAt_ok inside, Trap.ok_bind, drop_cons inside, lossyStep]
  split
  next ascii =>
    simp only [scan_ascii ascii, Trap.pure_eq]
    rfl
  next high =>
    rcases lead_fits high with ⟨none', foreign⟩ | ⟨row, found, fits⟩
    · simp only [none', scan_foreign foreign, Trap.pure_eq]
    · rw [found, scan_row fits]
      dsimp only
      split
      next beyond =>
        rw [List.drop_of_length_le beyond]
        rfl
      next more =>
        have second : i + 1 < bytes.length := by omega
        rw [byteAt_ok second, Trap.ok_bind, drop_cons second, follow]
        cases accepted : row.acceptsFirstContinuation bytes[i + 1] with
        | false => rfl
        | true =>
          simp only [Bool.not_true, Bool.false_eq_true, if_false, if_true]
          rw [lossyTail_eq (by omega)]
          cases read : follow (List.replicate (row.width - 2) (between 0x80 0xBF)) (bytes.drop (i + 2)) 2 with
          | nothing | incomplete =>
            have length : bytes.length - i = (bytes[i] :: bytes[i + 1] :: bytes.drop (i + 2)).length := by
              rw [List.length_cons, List.length_cons, List.length_drop]
              omega
            dsimp only
            rw [length]
          | illFormed n => rfl
          | scalar n =>
            obtain ⟨whole, width⟩ := code_whole fits read
            dsimp only
            rw [whole, width]

theorem strict_decodes (inside : i < bytes.length) : decodeUtf8At bytes i = strictStep (bytes.drop i) := by
  rw [decodeUtf8At, if_neg (Nat.not_le.mpr inside), byteAt_ok inside, Trap.ok_bind, drop_cons inside, strictStep]
  split
  next ascii =>
    simp only [scan_ascii ascii, Trap.pure_eq]
    rfl
  next high =>
    rcases lead_fits high with ⟨none', foreign⟩ | ⟨row, found, fits⟩
    · simp only [none', scan_foreign foreign]
    · have wide := fits.1
      rw [found]
      dsimp only
      split
      next short =>
        -- A sequence that does not fit is no scalar, wherever it breaks.
        cases read : scan (bytes[i] :: bytes.drop (i + 1)) with
        | nothing => rfl
        | illFormed n => rfl
        | incomplete => rfl
        | scalar n =>
          rw [scan_row fits] at read
          obtain ⟨count, within⟩ := follow_scalar read
          rw [List.length_cons, List.length_replicate, List.length_drop] at within
          omega
      next fitting =>
        have second : i + 1 < bytes.length := by omega
        rw [scan_row fits, byteAt_ok second, Trap.ok_bind, drop_cons second, follow]
        cases accepted : row.acceptsFirstContinuation bytes[i + 1] with
        | false => rfl
        | true =>
          simp only [Bool.not_true, Bool.false_eq_true, if_false, if_true]
          rw [strictTail_eq (by omega)]
          cases read : follow (List.replicate (row.width - 2) (between 0x80 0xBF)) (bytes.drop (i + 2)) 2 with
          | nothing => rfl
          | incomplete => rfl
          | illFormed n => rfl
          | scalar n =>
            obtain ⟨whole, width⟩ := code_whole fits read
            dsimp only
            rw [whole, width]

/-- Turns that go from one place to another without a gap. -/
def Covers : Nat → List Turn → Nat → Prop
  | start, [], stop => start = stop
  | start, turn :: rest, stop => turn.offset = start ∧ start < turn.next ∧ Covers turn.next rest stop

def scalars (turns : List Turn) : List Nat := turns.map Turn.scalar

def codes (chars : List Char) : List Nat := chars.map fun c => c.val.toNat

theorem scalar_read {rest : List UInt8} {n : Nat} (read : scan rest = .scalar n) :
    ∃ c, code (rest.take n) = c.val.toNat ∧ rest = String.utf8EncodeChar c ++ rest.drop n := by
  obtain ⟨c, encoded⟩ := (scalar_of_scan read).encoded
  exact ⟨c, by rw [← encoded, code_encode], by rw [encoded, List.take_append_drop]⟩

/-- What a step of the lossy loop takes off the rest of the text. -/
theorem lossyStep_replaces {rest : List UInt8} (some' : rest ≠ []) : 0 < (lossyStep rest).2 ∧ (lossyStep rest).2 ≤ rest.length ∧
    ∃ c : Char, (lossyStep rest).1 = c.val.toNat ∧
      fromUtf8Lossy rest = String.utf8EncodeChar c ++ fromUtf8Lossy (rest.drop (lossyStep rest).2) ∧
      ∀ chars, Replaced (rest.drop (lossyStep rest).2) chars → Replaced rest (c :: chars) := by
  have positive : 0 < rest.length := List.length_pos_iff.mpr some'
  rw [lossyStep]
  cases read : scan rest with
  | nothing => exact absurd (scan_nothing.mp read) some'
  | scalar n =>
    obtain ⟨low, high⟩ := scan_scalar read
    obtain ⟨c, value, whole⟩ := scalar_read read
    refine ⟨low, high, c, value, ?_, fun chars replaced => ?_⟩
    · rw [lossy_eq rest, read]
      obtain ⟨c', encoded⟩ := (scalar_of_scan read).encoded
      have same : rest.take n = String.utf8EncodeChar c := by
        have parts := (List.take_append_drop n rest).trans whole
        exact List.append_cancel_right parts
      dsimp only
      rw [same]
    · rw [whole]
      exact .char replaced
  | illFormed n =>
    obtain ⟨low, high⟩ := scan_illFormed read
    refine ⟨low, high, Char.ofNat 0xFFFD, rfl, ?_, fun chars replaced => ?_⟩
    · rw [lossy_eq rest, read, replacement_eq]
    · have subpart := maximal_of_illFormed read
      have parts := List.take_append_drop n rest
      rw [← parts]
      exact .broken (parts.symm ▸ subpart) replaced
  | incomplete =>
    refine ⟨positive, Nat.le_refl _, Char.ofNat 0xFFFD, rfl, ?_, fun chars replaced => ?_⟩
    · dsimp only
      rw [lossy_eq rest, read, replacement_eq, List.drop_length, lossy_nil, List.append_nil]
    · have subpart := maximal_of_incomplete read
      dsimp only at replaced
      rw [List.drop_length] at replaced
      have parts := List.append_nil rest
      rw [← parts]
      exact .broken (parts.symm ▸ subpart) replaced

structure Replaces (bytes : List UInt8) (offset : Nat) (walk : Walk) (chars : List Char) : Prop where
  finished : walk.trap = none
  ended : walk.stop = bytes.length
  covers : Covers offset walk.turns bytes.length
  yields : scalars walk.turns = codes chars
  replaced : Replaced (bytes.drop offset) chars
  lossy : chars.flatMap String.utf8EncodeChar = fromUtf8Lossy (bytes.drop offset)

def lossyWalk (bytes : List UInt8) : Nat → Nat → Walk := walk strCharScalarLossy strCharNextLossy bytes

def strictWalk (bytes : List UInt8) : Nat → Nat → Walk := walk strCharScalar strCharNext bytes

theorem lossyWalk_succ {fuel offset : Nat} (inside : offset < bytes.length) : lossyWalk bytes (fuel + 1) offset =
    let (c, width) := lossyStep (bytes.drop offset)
    let rest := lossyWalk bytes fuel (offset + width)
    { rest with turns := { offset := offset, next := offset + width, scalar := c } :: rest.turns } := by
  have decoded := lossy_decodes inside
  rw [lossyWalk, walk, if_pos inside, strCharScalarLossy, strCharNextLossy, decoded]
  rfl

theorem strictWalk_succ {fuel offset : Nat} (inside : offset < bytes.length) : strictWalk bytes (fuel + 1) offset =
    match strictStep (bytes.drop offset) with
    | .error trap => { turns := [], stop := offset, trap := some trap }
    | .ok (c, width) =>
      let rest := strictWalk bytes fuel (offset + width)
      { rest with turns := { offset := offset, next := offset + width, scalar := c } :: rest.turns } := by
  have decoded := strict_decodes inside
  rw [strictWalk, walk, if_pos inside, strCharScalar, strCharNext, decoded]
  cases strictStep (bytes.drop offset) with
  | error trap => rfl
  | ok step => rfl

theorem lossyWalk_replaces {fuel offset : Nat} (within : offset ≤ bytes.length) (enough : bytes.length - offset < fuel) :
    ∃ chars, Replaces bytes offset (lossyWalk bytes fuel offset) chars := by
  induction fuel generalizing offset with
  | zero => omega
  | succ fuel ih =>
    rcases Nat.lt_or_ge offset bytes.length with inside | beyond
    · have some' : bytes.drop offset ≠ [] := by
        rw [ne_eq, List.drop_eq_nil_iff]
        omega
      obtain ⟨positive, short, c, value, lossy, replaces⟩ := lossyStep_replaces some'
      rw [lossyWalk_succ inside]
      generalize lossyStep (bytes.drop offset) = step at positive short value lossy replaces
      obtain ⟨scalar, width⟩ := step
      dsimp only at positive short value lossy replaces ⊢
      rw [List.length_drop] at short
      obtain ⟨chars, finished, ended, covers, yields, replaced, converted⟩ := @ih (offset + width) (by omega) (by omega)
      rw [← List.drop_drop] at replaced converted
      refine ⟨c :: chars, finished, ended, ⟨rfl, by dsimp only; omega, covers⟩, ?_, replaces chars replaced, ?_⟩
      · rw [scalars, List.map_cons, ← scalars, yields, value]
        rfl
      · rw [List.flatMap_cons, converted, lossy]
    · have last : offset = bytes.length := by omega
      rw [lossyWalk, walk, if_neg (by omega)]
      refine ⟨[], rfl, last, last, rfl, ?_, ?_⟩
      · rw [List.drop_of_length_le beyond]
        exact .nil
      · rw [List.drop_of_length_le beyond]
        exact lossy_nil.symm

/-- A strict loop that stopped where no character begins, after the ones before. -/
structure Stops (bytes : List UInt8) (offset : Nat) (walk lossy : Walk) (chars : List Char) : Prop where
  trapped : walk.trap = some .invalidUtf8
  inside : offset ≤ walk.stop ∧ walk.stop < bytes.length
  covers : Covers offset walk.turns walk.stop
  yields : scalars walk.turns = codes chars
  before : bytes.drop offset = chars.flatMap String.utf8EncodeChar ++ bytes.drop walk.stop
  ill : ∀ c, ¬String.utf8EncodeChar c <+: bytes.drop walk.stop
  same : walk.turns <+: lossy.turns

theorem strictWalk_cases {fuel offset : Nat} (within : offset ≤ bytes.length) (enough : bytes.length - offset < fuel) :
    fromUtf8 (bytes.drop offset) = .valid ∧ strictWalk bytes fuel offset = lossyWalk bytes fuel offset ∨
      fromUtf8 (bytes.drop offset) ≠ .valid ∧
        ∃ chars, Stops bytes offset (strictWalk bytes fuel offset) (lossyWalk bytes fuel offset) chars := by
  induction fuel generalizing offset with
  | zero => omega
  | succ fuel ih =>
    rcases Nat.lt_or_ge offset bytes.length with inside | beyond
    · rw [strictWalk_succ inside, lossyWalk_succ inside, strictStep, lossyStep]
      have never : (∀ n, scan (bytes.drop offset) ≠ .scalar n) → ∀ c, ¬String.utf8EncodeChar c <+: bytes.drop offset :=
        fun none' c front => none' _ (scan_of_char front)
      cases read : scan (bytes.drop offset) with
      | nothing =>
        have empty := scan_nothing.mp read
        rw [List.drop_eq_nil_iff] at empty
        omega
      | scalar n =>
        obtain ⟨positive, short⟩ := scan_scalar read
        obtain ⟨c, value, whole⟩ := scalar_read read
        rw [List.length_drop] at short
        have outcome : fromUtf8 (bytes.drop offset) = (fromUtf8 (bytes.drop (offset + n))).after n := by
          rw [fromUtf8_eq (bytes.drop offset), read, ← List.drop_drop]
        rw [List.drop_drop] at whole
        dsimp only
        rw [outcome, ne_eq, Validation.after_valid, value]
        rcases @ih (offset + n) (by omega) (by omega) with ⟨valid, same⟩ | ⟨invalid, chars, stops⟩
        · exact .inl ⟨valid, by rw [same]⟩
        · obtain ⟨trapped, ⟨low, high⟩, covers, yields, before, ill, same⟩ := stops
          refine .inr ⟨invalid, c :: chars, trapped, ⟨?_, high⟩, ⟨rfl, ?_, covers⟩, ?_, ?_, ill, ?_⟩
          · exact Nat.le_trans (Nat.le_add_right _ _) low
          · dsimp only
            omega
          · rw [scalars, List.map_cons, ← scalars]
            change c.val.toNat :: scalars (strictWalk bytes fuel (offset + n)).turns = _
            rw [yields]
            rfl
          · rw [whole, before, List.flatMap_cons, List.append_assoc]
          · exact List.cons_prefix_cons.mpr ⟨rfl, same⟩
      | illFormed n =>
        refine .inr ⟨?_, [], rfl, ⟨Nat.le_refl _, inside⟩, rfl, rfl, rfl, never (by rw [read]; exact nofun), List.nil_prefix⟩
        rw [fromUtf8_eq, read]
        exact nofun
      | incomplete =>
        refine .inr ⟨?_, [], rfl, ⟨Nat.le_refl _, inside⟩, rfl, rfl, rfl, never (by rw [read]; exact nofun), List.nil_prefix⟩
        rw [fromUtf8_eq, read]
        exact nofun
    · refine .inl ⟨?_, ?_⟩
      · rw [List.drop_of_length_le beyond, fromUtf8_eq]
        rfl
      · rw [strictWalk, lossyWalk, walk, walk, if_neg (by omega), if_neg (by omega)]

/-- The lossy loop finishes and takes the text apart without a gap, into the
characters of the standard replacement. The strict loop is the same loop on
encoded text, and elsewhere traps where the first sequence is ill-formed. -/
theorem characters_sound (bytes : List UInt8) :
    (∃ chars, Replaces bytes 0 (charsLossy bytes) chars) ∧
    ((∃ chars : List Char, bytes = chars.flatMap String.utf8EncodeChar) ∧ chars bytes = charsLossy bytes ∨
      (¬∃ chars : List Char, bytes = chars.flatMap String.utf8EncodeChar) ∧
        ∃ chars, Stops bytes 0 (Rue.Runtime.Characters.chars bytes) (charsLossy bytes) chars) := by
  refine ⟨lossyWalk_replaces (Nat.zero_le _) (by omega), ?_⟩
  rw [← valid_iff_encoded]
  exact @strictWalk_cases bytes (bytes.length + 1) 0 (Nat.zero_le _) (by omega)

end Characters

end Rue.Proofs.Runtime
