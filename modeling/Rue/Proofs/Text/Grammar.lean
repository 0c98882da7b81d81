import Rue.Lib.Utf8
import Rue.Text.Json
import Rue.Lib.Cursor

/-! The texts that are JSON, and the value each one stands for. The grammar says
nothing of depth, which is a measure of the value. -/

namespace Rue.Proofs.Text.Grammar
open Rue.Lib Rue.Text

def Space (bytes : StrBuf) : Prop := ∀ b ∈ bytes, b ∈ ([0x20, 0x09, 0x0A, 0x0D] : StrBuf)

def Digit (b : UInt8) : Prop := 0x30 ≤ b.toNat ∧ b.toNat ≤ 0x39

def Digits (bytes : StrBuf) : Prop := bytes ≠ [] ∧ ∀ b ∈ bytes, Digit b

inductive Integer : StrBuf → Prop where
  | zero : Integer [0x30]
  | digits {first following} (leading : Digit first) (positive : first ≠ 0x30) (rest : ∀ b ∈ following, Digit b) :
      Integer (first :: following)

inductive Fraction : StrBuf → Prop where
  | absent : Fraction []
  | digits {digits} (some' : Digits digits) : Fraction (0x2E :: digits)

inductive Exponent : StrBuf → Prop where
  | absent : Exponent []
  | digits {e sign digits} (mark : e ∈ ([0x65, 0x45] : StrBuf)) (signed : sign ∈ ([[], [0x2B], [0x2D]] : List StrBuf))
      (some' : Digits digits) : Exponent (e :: (sign ++ digits))

inductive Number : StrBuf → Prop where
  | made {sign integer fraction exponent} (signed : sign ∈ ([[], [0x2D]] : List StrBuf)) (whole : Integer integer)
      (decimals : Fraction fraction) (power : Exponent exponent) : Number (sign ++ (integer ++ (fraction ++ exponent)))

def HexDigit (b : UInt8) (value : Nat) : Prop :=
  value < 10 ∧ b.toNat = 0x30 + value ∨ 10 ≤ value ∧ value < 16 ∧ (b.toNat = 0x41 + (value - 10) ∨ b.toNat = 0x61 + (value - 10))

inductive Hex4 : StrBuf → Nat → Prop where
  | digits {a b c d first second third fourth} (one : HexDigit a first) (two : HexDigit b second) (three : HexDigit c third)
      (four : HexDigit d fourth) : Hex4 [a, b, c, d] (((first * 16 + second) * 16 + third) * 16 + fourth)

/-- What may follow a backslash, with the byte it stands for. -/
def escapes : List (UInt8 × UInt8) :=
  [(0x22, 0x22), (0x5C, 0x5C), (0x2F, 0x2F), (0x62, 0x08), (0x66, 0x0C), (0x6E, 0x0A), (0x72, 0x0D), (0x74, 0x09)]

/-- One character of a string, as spelled and as decoded. A single unit that is half
of a pair encodes no character. -/
inductive Piece : StrBuf → StrBuf → Prop where
  | plain {bytes} (scalar : Utf8.Scalar bytes) (allowed : ∀ b, bytes = [b] → 0x20 ≤ b.toNat ∧ b ≠ 0x22 ∧ b ≠ 0x5C) :
      Piece bytes bytes
  | escape {e c} (listed : (e, c) ∈ escapes) : Piece [0x5C, e] [c]
  | unit {digits} {c : Char} (spelled : Hex4 digits c.val.toNat) :
      Piece (0x5C :: 0x75 :: digits) (String.utf8EncodeChar c)
  | pair {first second high low} {c : Char} (one : Hex4 first high) (two : Hex4 second low)
      (upper : 0xD800 ≤ high ∧ high < 0xDC00) (lower : 0xDC00 ≤ low ∧ low < 0xE000)
      (code : c.val.toNat = 0x10000 + (high - 0xD800) * 0x400 + (low - 0xDC00)) :
      Piece (0x5C :: 0x75 :: (first ++ (0x5C :: 0x75 :: second))) (String.utf8EncodeChar c)

inductive Characters : StrBuf → StrBuf → Prop where
  | nil : Characters [] []
  | cons {spelling decoded following rest} (first : Piece spelling decoded) (others : Characters following rest) :
      Characters (spelling ++ following) (decoded ++ rest)

mutual

inductive Spells : StrBuf → Json → Prop where
  | null : Spells [0x6E, 0x75, 0x6C, 0x6C] .null
  | true : Spells [0x74, 0x72, 0x75, 0x65] (.bool .true)
  | false : Spells [0x66, 0x61, 0x6C, 0x73, 0x65] (.bool .false)
  | number {spelling} (number : Number spelling) : Spells spelling (.number spelling)
  | string {characters decoded} (string : Characters characters decoded) :
      Spells (0x22 :: (characters ++ [0x22])) (.string decoded)
  | emptyArray {space} (blank : Space space) : Spells (0x5B :: (space ++ [0x5D])) (.array [])
  | array {bytes items} (some' : Items bytes items) : Spells (0x5B :: (bytes ++ [0x5D])) (.array items)
  | emptyObject {space} (blank : Space space) : Spells (0x7B :: (space ++ [0x7D])) (.object [] [])
  | object {bytes keys values} (some' : Members bytes keys values) : Spells (0x7B :: (bytes ++ [0x7D])) (.object keys values)

inductive Items : StrBuf → List Json → Prop where
  | one {before bytes after value} (left : Space before) (item : Spells bytes value) (right : Space after) :
      Items (before ++ (bytes ++ after)) [value]
  | more {before bytes after rest value items} (left : Space before) (item : Spells bytes value) (right : Space after)
      (others : Items rest items) : Items (before ++ (bytes ++ (after ++ 0x2C :: rest))) (value :: items)

/-- The last two spaces are around the value. -/
inductive Members : StrBuf → List StrBuf → List Json → Prop where
  | one {before spelling key between left' bytes right' value} (left : Space before) (name : Characters spelling key)
      (gap : Space between) (before' : Space left') (item : Spells bytes value) (right : Space right') :
      Members (before ++ (0x22 :: (spelling ++ 0x22 :: (between ++ 0x3A :: (left' ++ (bytes ++ right')))))) [key] [value]
  | more {before spelling key between left' bytes right' value rest keys values} (left : Space before)
      (name : Characters spelling key) (gap : Space between) (before' : Space left') (item : Spells bytes value)
      (right : Space right') (others : Members rest keys values) :
      Members (before ++ (0x22 :: (spelling ++ 0x22 :: (between ++ 0x3A :: (left' ++ (bytes ++ (right' ++ 0x2C :: rest)))))))
        (key :: keys) (value :: values)

end

inductive Document : StrBuf → Json → Prop where
  | made {before bytes after value} (left : Space before) (item : Spells bytes value) (right : Space after) :
      Document (before ++ (bytes ++ after)) value

mutual

/-- How far below the value its deepest part is. -/
def nesting : Json → Nat
  | .array items => below items
  | .object _ values => below values
  | _ => 0

def below : List Json → Nat
  | [] => 0
  | value :: rest => max (nesting value + 1) (below rest)

end

end Rue.Proofs.Text.Grammar

/-! What the parsing functions give, and the ones that read spaces, literals and
numbers against the grammar. -/

namespace Rue.Proofs.Text.Reading
open Rue.Lib.Cursor Rue.Text Rue.Proofs.Text.Grammar

/-- A value of a kind, or an error that is reported. -/
def Gives {α : Type} (Good : α → Prop) : Outcome α → Prop
  | .ok value => Good value
  | .error (.reported _) => True
  | .error _ => False

theorem gives_fail {α : Type} {Good : α → Prop} {error : ParseError} : Gives Good (fail error) := trivial

theorem ok_bind {α β : Type} {value : α} {next : α → Outcome β} : (Except.ok value >>= next) = next value := rfl

theorem Gives.bind {α β : Type} {Good : α → Prop} {Good' : β → Prop} {outcome : Outcome α} {next : α → Outcome β}
    (first : Gives Good outcome) (then' : ∀ value, Good value → Gives Good' (next value)) : Gives Good' (outcome >>= next) := by
  cases outcome with
  | ok value => exact then' value first
  | error failure =>
    cases failure with
    | reported error => exact trivial
    | trap => exact first
    | endless => exact first

theorem Gives.weaken {α : Type} {Good Good' : α → Prop} {outcome : Outcome α} (first : Gives Good outcome)
    (more : ∀ value, Good value → Good' value) : Gives Good' outcome := by
  cases outcome with
  | ok value => exact more value first
  | error failure =>
    cases failure with
    | reported error => exact trivial
    | trap => exact False.elim first
    | endless => exact False.elim first

variable {input rest : StrBuf} {pos : Nat}

theorem isSpace_iff {b : UInt8} : isSpace b ↔ b ∈ ([0x20, 0x09, 0x0A, 0x0D] : StrBuf) := by
  simp only [isSpace, Bool.or_eq_true, decide_eq_true_eq, List.mem_cons, List.not_mem_nil, or_false]
  simp only [← UInt8.toNat_inj]
  exact ⟨fun spaces => by rcases spaces with ((one | two) | three) | four <;> simp [*],
    fun spaces => by rcases spaces with one | two | three | four <;> simp [*]⟩

theorem isDigit_iff {b : UInt8} : isDigit b ↔ Digit b := by
  rw [isDigit, Bool.and_eq_true, decide_eq_true_eq, decide_eq_true_eq]
  rfl

theorem skipSpace_turn (pos : Nat) (b : UInt8) (found : input[pos]? = some b) :
    skipSpace input pos = if isSpace b then skipSpace input (pos + 1) else pos := by
  rw [skipSpace, if_pos (List.getElem?_eq_some_iff.mp found).1, found]

theorem skipSpace_atEnd (pos : Nat) (none' : input[pos]? = none) : skipSpace input pos = pos := by
  rw [skipSpace, none', ite_self]

theorem consumeDigits_turn (pos : Nat) (b : UInt8) (found : input[pos]? = some b) :
    consumeDigits input pos = if isDigit b then consumeDigits input (pos + 1) else pos := by
  rw [consumeDigits, if_pos (List.getElem?_eq_some_iff.mp found).1, found]

theorem consumeDigits_atEnd (pos : Nat) (none' : input[pos]? = none) : consumeDigits input pos = pos := by
  rw [consumeDigits, none', ite_self]

theorem skipSpace_reads (here : At input pos rest) :
    ∃ space after, rest = space ++ after ∧ Space space ∧ At input (skipSpace input pos) after := by
  obtain ⟨space, after, parts, blank, there, _⟩ := here.skipped_reads skipSpace_turn skipSpace_atEnd
  exact ⟨space, after, parts, fun b inside => isSpace_iff.mp (blank b inside), there⟩

def Solid (bytes : StrBuf) : Prop := ∀ b, bytes.head? = some b → isSpace b = false

theorem skipSpace_past {space : StrBuf} (here : At input pos (space ++ rest)) (blank : Space space) (solid : Solid rest) :
    At input (skipSpace input pos) rest := by
  have past := here.skipped_past skipSpace_turn skipSpace_atEnd (fun b inside => isSpace_iff.mpr (blank b inside)) solid
  rw [past]
  exact here.skip

theorem parseLiteral_gives {word : StrBuf} (here : At input pos rest) :
    Gives (fun fin => ∃ after, rest = word ++ after ∧ At input fin after) (parseLiteral input pos word) := by
  induction word generalizing pos rest with
  | nil => exact ⟨rest, rfl, here⟩
  | cons expected word ih =>
    rw [parseLiteral]
    split
    next => exact gives_fail
    next b found =>
      split
      next => exact gives_fail
      next same =>
        obtain ⟨after, rfl⟩ := here.cons found
        refine (ih here.next).weaken ?_
        rintro fin ⟨after', rfl, there⟩
        rw [not_not.mp same]
        exact ⟨after', rfl, there⟩

theorem parseLiteral_past {word : StrBuf} (here : At input pos (word ++ rest)) :
    parseLiteral input pos word = .ok (pos + word.length) := by
  induction word generalizing pos with
  | nil => rfl
  | cons expected word ih =>
    rw [List.cons_append] at here
    rw [parseLiteral, here.head]
    simp only [List.head?_cons, ne_eq, not_true_eq_false, if_false]
    rw [ih here.next, List.length_cons, Nat.add_assoc, Nat.add_comm 1]

end Rue.Proofs.Text.Reading
