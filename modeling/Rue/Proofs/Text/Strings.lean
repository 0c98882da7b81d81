import Mathlib
import Rue.Proofs.Text.Characters

/-! Strings: what the parser decodes is what the spelling stands for. -/

namespace Rue.Proofs.Text.Strings
open Rue.Lib Rue.Lib.Cursor Rue.Text Rue.Proofs.Text.Grammar Rue.Proofs.Text.Reading Rue.Proofs.Text.Numbers
open Rue.Proofs.Text.Characters

variable {input rest out : StrBuf} {pos : Nat}

theorem simpleEscape_iff {e c : UInt8} : simpleEscape e.toNat = some c ↔ (e, c) ∈ escapes := by
  constructor
  · intro found
    have same : ∀ n : Nat, e.toNat = n → n < 256 → e = UInt8.ofNat n := by
      rintro n rfl -
      exact UInt8.ofNat_toNat.symm
    simp only [simpleEscape] at found
    split at found
    next itself =>
      cases found
      rcases itself with quote | backslash | slash
      · rw [same _ quote (by decide)]; decide
      · rw [same _ backslash (by decide)]; decide
      · rw [same _ slash (by decide)]; decide
    next =>
      iterate 5
        split at found
        next letter => cases found; rw [same _ letter (by decide)]; decide
      cases found
  · intro listed
    have all : escapes.all (fun entry => simpleEscape entry.1.toNat = some entry.2) := by decide
    exact of_decide_eq_true (List.all_eq_true.mp all (e, c) listed)

/-- A unit read first is a character or the upper half of a pair. -/
theorem parseUnicodeEscape_gives {position : Nat} (here : At input pos rest) :
    Gives (Adds input rest out fun text decoded => Piece (0x5C :: 0x75 :: text) decoded)
      (parseUnicodeEscape input pos out position) := by
  rw [parseUnicodeEscape]
  refine (parseHex4_gives here).bind ?_
  rintro ⟨first, fin⟩ ⟨text, after, rfl, ⟨spelled, fits⟩, there⟩
  simp only
  split
  next upper =>
    split
    next => exact gives_fail
    next b found =>
      obtain ⟨after, rfl⟩ := there.cons found
      split
      next => exact gives_fail
      next backslash =>
        split
        next => exact gives_fail
        next u found' =>
          obtain ⟨after, rfl⟩ := there.next.cons found'
          split
          next => exact gives_fail
          next letter =>
            rw [show b = 0x5C from UInt8.toNat_inj.mp (not_not.mp backslash)] at here there ⊢
            rw [show u = 0x75 from UInt8.toNat_inj.mp (not_not.mp letter)] at here there ⊢
            refine (parseHex4_gives there.next.next).bind ?_
            rintro ⟨second, fin'⟩ ⟨text', after, rfl, ⟨spelled', fits'⟩, there'⟩
            have lower := fits'.mp rfl
            simp only
            rw [if_neg (by omega)]
            generalize sum : 65536 + (first - 55296) * 1024 + (second - 56320) = cp
            obtain ⟨c, code⟩ := Utf8.char_of_code cp (by omega)
            rw [← code, pushCodepoint_char]
            refine ⟨text ++ (0x5C :: 0x75 :: text'), after, ?_, ⟨_, rfl, ?_⟩, there'⟩
            · simp only [List.append_assoc, List.cons_append]
            · exact .pair spelled spelled' ⟨upper.1, by omega⟩ lower (code.trans sum.symm)
  next single =>
    have outside := mt fits.mpr Bool.false_ne_true
    have small : first < 65536 := by
      cases spelled with
      | digits one two three four =>
        have small := HexDigit.small one
        have small' := HexDigit.small two
        have small'' := HexDigit.small three
        have small''' := HexDigit.small four
        omega
    obtain ⟨c, code⟩ := Utf8.char_of_code first (by omega)
    rw [← code] at spelled ⊢
    rw [pushCodepoint_char]
    exact ⟨text, after, rfl, ⟨_, rfl, .unit spelled⟩, there⟩

theorem Hex4.length {text : StrBuf} {code : Nat} (spelled : Hex4 text code) : text.length = 4 := by
  cases spelled with
  | digits => rfl

theorem parseUnicodeEscape_unit {text : StrBuf} {c : Char} {position : Nat} (here : At input pos (text ++ rest))
    (spelled : Hex4 text c.val.toNat) :
    parseUnicodeEscape input pos out position = .ok (out ++ String.utf8EncodeChar c, pos + 4) := by
  have valid : c.val.toNat < 0xD800 ∨ 0xDFFF < c.val.toNat ∧ c.val.toNat < 0x110000 := c.valid
  have fits : Fits false c.val.toNat := by
    rw [Fits]
    constructor
    · exact fun pending => absurd pending Bool.false_ne_true
    · omega
  have outside : ¬(55296 ≤ c.val.toNat ∧ c.val.toNat ≤ 56319) := by omega
  rw [parseUnicodeEscape, parseHex4_past here spelled fits, ok_bind]
  simp only
  rw [if_neg outside, pushCodepoint_char]
  rfl

theorem parseUnicodeEscape_pair {first second : StrBuf} {high low position : Nat} {c : Char}
    (here : At input pos (first ++ (0x5C :: 0x75 :: (second ++ rest)))) (one : Hex4 first high) (two : Hex4 second low)
    (upper : 0xD800 ≤ high ∧ high < 0xDC00) (lower : 0xDC00 ≤ low ∧ low < 0xE000)
    (code : c.val.toNat = 0x10000 + (high - 0xD800) * 0x400 + (low - 0xDC00)) :
    parseUnicodeEscape input pos out position = .ok (out ++ String.utf8EncodeChar c, pos + 10) := by
  have fits : Fits false high := by
    rw [Fits]
    constructor
    · exact fun pending => absurd pending Bool.false_ne_true
    · omega
  have there := here.skip
  rw [Hex4.length one] at there
  have backslash : input[pos + 4]? = some 0x5C := there.head
  have letter : input[pos + 4 + 1]? = some 0x75 := there.next.head
  rw [parseUnicodeEscape, parseHex4_past here one fits, ok_bind]
  simp only
  rw [if_pos ⟨upper.1, by omega⟩, backslash]
  simp only
  rw [if_neg (by decide), letter]
  simp only
  rw [if_neg (by decide), parseHex4_past there.next.next two (iff_of_true rfl lower), ok_bind]
  simp only
  rw [if_neg (by omega), ← code, pushCodepoint_char]
  rfl

/-- The characters and the quote after them. -/
def Closed (text decoded : StrBuf) : Prop := ∃ characters, text = characters ++ [0x22] ∧ Characters characters decoded

theorem adds_piece {spelling decoded : StrBuf} {taken : StrBuf × Nat} (first : Piece spelling decoded)
    (later : Adds input rest (out ++ decoded) Closed taken) : Adds input (spelling ++ rest) out Closed taken := by
  obtain ⟨text, after, rfl, ⟨more, whole, characters, rfl, others⟩, there⟩ := later
  refine ⟨spelling ++ (characters ++ [0x22]), after, (List.append_assoc ..).symm, ⟨decoded ++ more, ?_, ?_⟩, there⟩
  · rw [whole, List.append_assoc]
  · exact ⟨spelling ++ characters, (List.append_assoc ..).symm, .cons first others⟩

theorem Piece.length {spelling decoded : StrBuf} (piece : Piece spelling decoded) : 0 < spelling.length := by
  cases piece with
  | plain scalar => cases scalar <;> exact Nat.succ_pos _
  | escape => exact Nat.succ_pos _
  | unit => exact Nat.succ_pos _
  | pair => exact Nat.succ_pos _

theorem piece_high {b : UInt8} {tail : StrBuf} (scalar : Utf8.Scalar (b :: tail)) (high : 128 ≤ b.toNat) :
    Piece (b :: tail) (b :: tail) := by
  refine .plain scalar fun d same => ?_
  cases same
  refine ⟨by omega, ?_, ?_⟩ <;> rintro rfl <;> exact absurd high (by decide)

theorem piece_ascii {b : UInt8} (printable : ¬b.toNat < 32) (ascii : ¬128 ≤ b.toNat) (notQuote : ¬b.toNat = 34)
    (notBackslash : b.toNat ≠ 92) : Piece [b] [b] := by
  refine .plain (.one (by omega)) fun d same => ?_
  cases same
  refine ⟨by omega, ?_, ?_⟩
  · rintro rfl
    exact notQuote rfl
  · rintro rfl
    exact notBackslash rfl

theorem parseCharacters_gives {tries : Nat} (here : At input pos rest) (enough : rest.length < tries) :
    Gives (Adds input rest out Closed) (parseCharacters input tries pos out) := by
  induction tries generalizing pos rest out with
  | zero => omega
  | succ tries ih =>
    -- The turns after one that took a piece.
    have turn : ∀ {spelling decoded after : StrBuf} {fin : Nat}, rest = spelling ++ after → Piece spelling decoded →
        At input fin after → Gives (Adds input rest out Closed) (parseCharacters input tries fin (out ++ decoded)) := by
      intro spelling decoded after fin parts piece there
      have positive := Piece.length piece
      rw [parts, List.length_append] at enough
      rw [parts]
      exact (@ih after (out ++ decoded) fin there (by omega)).weaken fun _ => adds_piece piece
    rw [parseCharacters]
    split
    next => exact gives_fail
    next b found =>
      obtain ⟨after, rfl⟩ := here.cons found
      split
      next quote =>
        rw [show b = 0x22 from UInt8.toNat_inj.mp quote] at here ⊢
        exact ⟨[0x22], after, rfl, ⟨[], (List.append_nil out).symm, [], rfl, .nil⟩, here.next⟩
      next notQuote =>
        split
        next => exact gives_fail
        next printable =>
          split
          next high =>
            refine (copyUtf8_gives here.next high).bind ?_
            rintro ⟨whole, fin⟩ ⟨text, after, rfl, ⟨_, rfl, rfl, scalar⟩, there⟩
            exact turn rfl (piece_high scalar high) there
          next ascii =>
            split
            next notBackslash =>
              exact @turn [b] _ _ _ rfl (piece_ascii printable ascii notQuote notBackslash) here.next
            next backslash =>
              rw [show b = 0x5C from UInt8.toNat_inj.mp (not_not.mp backslash)] at here turn ⊢
              split
              next => exact gives_fail
              next e found' =>
                obtain ⟨after, rfl⟩ := here.next.cons found'
                split
                next c escaped => exact @turn [0x5C, e] _ _ _ rfl (.escape (simpleEscape_iff.mp escaped)) here.next.next
                next =>
                  split
                  next letter =>
                    rw [show e = 0x75 from UInt8.toNat_inj.mp letter] at here turn ⊢
                    refine (parseUnicodeEscape_gives here.next.next).bind ?_
                    rintro ⟨whole, fin⟩ ⟨text, after, rfl, ⟨decoded, rfl, piece⟩, there⟩
                    exact turn rfl piece there
                  next => exact gives_fail

theorem parseCharacters_piece {spelling decoded : StrBuf} {tries : Nat} (here : At input pos (spelling ++ rest))
    (piece : Piece spelling decoded) :
    parseCharacters input (tries + 1) pos out = parseCharacters input tries (pos + spelling.length) (out ++ decoded) := by
  cases piece with
  | plain scalar allowed =>
    cases spelling with
    | nil => cases scalar
    | cons lead tail =>
      have head : input[pos]? = some lead := here.head
      rw [parseCharacters, head]
      simp only
      by_cases high : 128 ≤ lead.toNat
      · rw [if_neg (by omega), if_neg (by omega), if_pos high, copyUtf8_past (At.next here) high scalar, List.length_cons,
          Nat.add_assoc, Nat.add_comm 1]
        rfl
      · cases scalar with
        | one ascii =>
          obtain ⟨printable, notQuote, notBackslash⟩ := allowed lead rfl
          have notQuote' : lead.toNat ≠ 34 := fun quote => notQuote (UInt8.toNat_inj.mp quote)
          have notBackslash' : lead.toNat ≠ 92 := fun backslash => notBackslash (UInt8.toNat_inj.mp backslash)
          rw [if_neg notQuote', if_neg (by omega), if_neg high, if_pos notBackslash']
          rfl
        | two low => omega
        | three low => omega
        | four low => omega
  | @escape e c listed =>
    have head : input[pos]? = some 0x5C := here.head
    have second : input[pos + 1]? = some e := (At.next here).head
    rw [parseCharacters, head]
    simp only
    rw [if_neg (by decide), if_neg (by decide), if_neg (by decide), if_neg (by decide), second]
    simp only [simpleEscape_iff.mpr listed]
    rfl
  | @unit digits c spelled =>
    have head : input[pos]? = some 0x5C := here.head
    have second : input[pos + 1]? = some 0x75 := (At.next here).head
    rw [parseCharacters, head]
    simp only
    rw [if_neg (by decide), if_neg (by decide), if_neg (by decide), if_neg (by decide), second]
    simp only [show simpleEscape (0x75 : UInt8).toNat = none from by decide]
    rw [if_pos (by decide), parseUnicodeEscape_unit (At.next (At.next here)) spelled, List.length_cons, List.length_cons,
      Hex4.length spelled]
    rfl
  | @pair first last high low c one two upper lower code =>
    simp only [List.cons_append, List.append_assoc] at here
    have head : input[pos]? = some 0x5C := here.head
    have second : input[pos + 1]? = some 0x75 := (At.next here).head
    rw [parseCharacters, head]
    simp only
    rw [if_neg (by decide), if_neg (by decide), if_neg (by decide), if_neg (by decide), second]
    simp only [show simpleEscape (0x75 : UInt8).toNat = none from by decide]
    rw [if_pos (by decide), parseUnicodeEscape_pair here.next.next one two upper lower code]
    simp only [List.length_cons, List.length_append, Hex4.length one, Hex4.length two]
    rfl

theorem parseCharacters_past {characters decoded : StrBuf} {tries : Nat} (here : At input pos (characters ++ 0x22 :: rest))
    (string : Characters characters decoded) (enough : characters.length < tries) :
    parseCharacters input tries pos out = .ok (out ++ decoded, pos + characters.length + 1) := by
  induction string generalizing pos out tries with
  | nil =>
    have head : input[pos]? = some 0x22 := here.head
    cases tries with
    | zero => omega
    | succ tries =>
      rw [parseCharacters, head, List.append_nil]
      rfl
  | @cons spelling decoded following more first others ih =>
    cases tries with
    | zero => omega
    | succ tries =>
      have positive := Piece.length first
      rw [List.length_append] at enough ⊢
      rw [List.append_assoc] at here
      rw [parseCharacters_piece here first, ih here.skip (by omega), List.append_assoc, Nat.add_assoc pos]

def Quoted (text decoded : StrBuf) : Prop := ∃ characters, text = 0x22 :: (characters ++ [0x22]) ∧ Characters characters decoded

theorem parseString_gives (here : At input pos rest) : Gives (Takes input rest Quoted) (parseString input pos) := by
  rw [parseString]
  split
  next => exact gives_fail
  next b found =>
    obtain ⟨after, rfl⟩ := here.cons found
    split
    next => exact gives_fail
    next quote =>
      have size := here.length
      rw [List.length_cons] at size
      rw [show b = 0x22 from UInt8.toNat_inj.mp (not_not.mp quote)] at here ⊢
      refine (parseCharacters_gives here.next (by omega)).weaken ?_
      rintro ⟨whole, fin⟩ ⟨text, after, rfl, ⟨decoded, same, characters, rfl, string⟩, there⟩
      refine ⟨_, after, rfl, ⟨characters, rfl, ?_⟩, there⟩
      rw [same]
      exact string

theorem parseString_past {characters decoded : StrBuf} (here : At input pos (0x22 :: (characters ++ 0x22 :: rest)))
    (string : Characters characters decoded) : parseString input pos = .ok (decoded, pos + characters.length + 2) := by
  have head : input[pos]? = some 0x22 := here.head
  have size := here.length
  rw [List.length_cons, List.length_append] at size
  rw [parseString, head]
  simp only
  rw [if_neg (by decide), parseCharacters_past here.next string (by omega), List.nil_append]
  congr 2
  omega

end Rue.Proofs.Text.Strings
