import Rue.Proofs.Text.Strings

/-! Errors inside a literal, a string or a number: what was read up to the named byte
can be completed, and the byte there, if any, is the first that is not accepted. -/

namespace Rue.Proofs.Text.Errors
open Rue.Lib Rue.Lib.Cursor Rue.Text Rue.Proofs.Text.Grammar Rue.Proofs.Text.Reading Rue.Proofs.Text.Numbers
open Rue.Proofs.Text.Characters Rue.Proofs.Text.Strings

def offset : ParseError → Nat
  | .unexpectedEnd offset => offset
  | .unexpectedByte offset => offset
  | .invalidNumber offset => offset
  | .invalidEscape offset => offset
  | .invalidUnicode offset => offset
  | .trailingCharacters offset => offset
  | .nestingTooDeep offset => offset

/-- What holds of every error that is reported. -/
def Errs {α : Type} (Bad : ParseError → Prop) (outcome : Outcome α) : Prop := ∀ error, outcome = fail error → Bad error

section Errs
variable {α β : Type} {Bad Bad' : ParseError → Prop} {outcome : Outcome α}

theorem errs_ok {value : α} : Errs Bad (.ok value) := nofun

theorem errs_trap : Errs Bad (.error .trap : Outcome α) := nofun

theorem errs_endless : Errs Bad (.error .endless : Outcome α) := nofun

theorem errs_fail {error : ParseError} (bad : Bad error) : Errs Bad (fail error : Outcome α) := by
  intro error' same
  cases same
  exact bad

theorem Errs.bind {Good : α → Prop} {next : α → Outcome β} (errs : Errs Bad outcome) (gives : Gives Good outcome)
    (later : ∀ value, Good value → Errs Bad (next value)) : Errs Bad (outcome >>= next) := by
  intro error failed
  cases outcome with
  | ok value => exact later value gives error failed
  | error failure =>
    cases failed
    exact errs error rfl

theorem Errs.weaken (errs : Errs Bad outcome) (more : ∀ error, Bad error → Bad' error) : Errs Bad' outcome :=
  fun error failed => more error (errs error failed)

end Errs

/-- The end is named where bytes are missing, and a byte where one is not accepted. -/
def Plain (error : ParseError) (left : StrBuf) : Prop :=
  match error with
  | .unexpectedEnd _ => left = []
  | .unexpectedByte _ | .invalidEscape _ | .invalidUnicode _ => left ≠ []
  | _ => False

/-- What was read before the error can be completed. -/
def Stuck (input rest : StrBuf) (Good : StrBuf → Prop) (error : ParseError) : Prop :=
  ∃ text left tail, rest = text ++ left ∧ At input (offset error) left ∧ Good (text ++ tail) ∧ Plain error left

variable {input rest out : StrBuf} {pos : Nat} {Good Good' : StrBuf → Prop} {error : ParseError}

theorem Stuck.here (here : At input pos rest) (same : offset error = pos) (tail : StrBuf) (good : Good tail)
    (plain : Plain error rest) : Stuck input rest Good error :=
  ⟨[], rest, tail, rfl, same ▸ here, good, plain⟩

theorem Stuck.behind {text after : StrBuf} (stuck : Stuck input after Good' error)
    (made : ∀ spelled, Good' spelled → ∃ more, Good (text ++ (spelled ++ more))) : Stuck input (text ++ after) Good error := by
  obtain ⟨read, left, tail, rfl, there, good, plain⟩ := stuck
  obtain ⟨more, good⟩ := made _ good
  refine ⟨text ++ read, left, tail ++ more, (List.append_assoc ..).symm, there, ?_, plain⟩
  simpa only [List.append_assoc] using good

theorem Stuck.completed (stuck : Stuck input rest Good' error)
    (made : ∀ spelled, Good' spelled → ∃ more, Good (spelled ++ more)) : Stuck input rest Good error :=
  @Stuck.behind _ _ _ _ [] _ stuck made

theorem missing (here : At input pos rest) (none' : input[pos]? = none) : rest = [] := here.nil none'

theorem missing_length (here : At input pos rest) (none' : input[pos]? = none) : At input input.length rest :=
  (here.atEnd.mpr (missing here none')) ▸ here

theorem present {b : UInt8} (here : At input pos rest) (found : input[pos]? = some b) : rest ≠ [] := by
  obtain ⟨after, rfl⟩ := here.cons found
  exact List.cons_ne_nil _ _

theorem parseLiteral_errs {word : StrBuf} (here : At input pos rest) :
    Errs (Stuck input rest (· = word)) (parseLiteral input pos word) := by
  induction word generalizing pos rest with
  | nil => exact errs_ok
  | cons expected word ih =>
    rw [parseLiteral]
    split
    next none' => exact errs_fail (.here here rfl (expected :: word) rfl (missing here none'))
    next b found =>
      split
      next => exact errs_fail (.here here rfl (expected :: word) rfl (present here found))
      next same =>
        obtain ⟨after, rfl⟩ := here.cons found
        rw [not_not.mp same]
        refine (ih here.next).weaken fun error stuck => @Stuck.behind _ _ _ _ [expected] _ stuck ?_
        rintro spelled rfl
        exact ⟨[], by simp⟩

/-- What is left to read of a unit that fits. -/
def filler (requireLowSurrogate : Bool) : StrBuf := if requireLowSurrogate then [0x44, 0x43, 0x30, 0x30] else [0x30, 0x30, 0x30, 0x30]

theorem hexTurn_errs {requireLowSurrogate : Bool} {left value : Nat} (Bad : ParseError → Prop) (here : At input pos rest)
    (stop : ∀ error, offset error = pos → Plain error rest → Bad error)
    (next : ∀ b digit after, rest = b :: after → HexDigit b digit → ¬TurnedDown requireLowSurrogate left value digit →
      At input (pos + 1) after → Errs Bad (parseHexDigits input requireLowSurrogate left (pos + 1) (value * 16 + digit))) :
    Errs Bad (parseHexDigits input requireLowSurrogate (left + 1) pos value) := by
  rw [parseHexDigits]
  split
  next none' => exact errs_fail (stop _ rfl (missing here none'))
  next b found =>
    have refused : Errs Bad (fail (.invalidUnicode pos) : Outcome (Nat × Nat)) := errs_fail (stop _ rfl (present here found))
    split
    next => exact refused
    next digit spelled =>
      split
      next => exact refused
      next first =>
        split
        next => exact refused
        next second =>
          obtain ⟨after, rfl⟩ := here.cons found
          refine next b digit after rfl (hexValue_iff.mp spelled) ?_ here.next
          rintro (third | fourth)
          · exact first third
          · exact second fourth

theorem zero_digit : HexDigit 0x30 0 := .inl ⟨by decide, rfl⟩

theorem twelve_digit : HexDigit 0x43 12 := .inr ⟨by decide, by decide, .inl rfl⟩

theorem thirteen_digit : HexDigit 0x44 13 := .inr ⟨by decide, by decide, .inl rfl⟩

theorem parseHex4_errs {requireLowSurrogate : Bool} (here : At input pos rest) :
    Errs (Stuck input rest fun text => ∃ code, Hex4 text code ∧ Fits requireLowSurrogate code)
      (parseHex4 input pos requireLowSurrogate) := by
  refine hexTurn_errs _ here (fun error same plain => .here here same (filler requireLowSurrogate) ?_ plain) ?_
  · cases requireLowSurrogate with
    | false => exact ⟨_, .digits zero_digit zero_digit zero_digit zero_digit, by simp [Fits]⟩
    | true => exact ⟨_, .digits thirteen_digit twelve_digit zero_digit zero_digit, by simp [Fits]⟩
  rintro a first after rfl one free there
  have small := HexDigit.small one
  refine hexTurn_errs _ there (fun error same plain => ?_) ?_
  · refine ⟨[a], after, (filler requireLowSurrogate).drop 1, rfl, same ▸ there, ?_, plain⟩
    cases requireLowSurrogate with
    | false =>
      refine ⟨_, .digits one zero_digit zero_digit zero_digit, ?_⟩
      simp only [Fits, Bool.false_eq_true, false_iff]
      omega
    | true =>
      refine ⟨_, .digits one twelve_digit zero_digit zero_digit, ?_⟩
      simp only [TurnedDown, Bool.not_true, Bool.false_eq_true, false_and, true_and, false_or] at free
      simp only [Fits, true_iff]
      omega
  rintro b second after rfl two free' there'
  have small' := HexDigit.small two
  rw [Nat.zero_mul, Nat.zero_add] at *
  have fits : ∀ third fourth, third < 16 → fourth < 16 →
      Fits requireLowSurrogate (((first * 16 + second) * 16 + third) * 16 + fourth) := by
    intro third fourth small'' small'''
    cases requireLowSurrogate with
    | false =>
      simp only [TurnedDown, Bool.false_eq_true, Bool.not_false, false_and, or_false, true_and, false_or] at free'
      simp only [Fits, Bool.false_eq_true, false_iff]
      omega
    | true =>
      simp only [TurnedDown, Bool.not_true, Bool.false_eq_true, false_and, true_and, false_or] at free free'
      simp only [Fits, true_iff]
      omega
  refine hexTurn_errs _ there' (fun error same plain => ?_) ?_
  · exact ⟨[a, b], after, [0x30, 0x30], rfl, same ▸ there',
      ⟨_, .digits one two zero_digit zero_digit, fits 0 0 (by decide) (by decide)⟩, plain⟩
  rintro c third after rfl three _ there''
  refine hexTurn_errs _ there'' (fun error same plain => ?_) fun _ _ _ _ _ _ _ => errs_ok
  exact ⟨[a, b, c], after, [0x30], rfl, same ▸ there'',
    ⟨_, .digits one two three zero_digit, fits third 0 (HexDigit.small three) (by decide)⟩, plain⟩

/-- What may follow a backslash and the letter of a unit. -/
def Escaped (text : StrBuf) : Prop := ∃ decoded, Piece (0x5C :: 0x75 :: text) decoded

theorem low_spelled : Hex4 [0x44, 0x43, 0x30, 0x30] 0xDC00 := .digits thirteen_digit twelve_digit zero_digit zero_digit

theorem Hex4.small {text : StrBuf} {code : Nat} (spelled : Hex4 text code) : code < 65536 := by
  cases spelled with
  | digits one two three four =>
    have small := HexDigit.small one
    have small' := HexDigit.small two
    have small'' := HexDigit.small three
    have small''' := HexDigit.small four
    omega

theorem pair_escaped {first second : StrBuf} {high low : Nat} (one : Hex4 first high) (two : Hex4 second low)
    (upper : 0xD800 ≤ high ∧ high < 0xDC00) (lower : 0xDC00 ≤ low ∧ low < 0xE000) :
    Escaped (first ++ (0x5C :: 0x75 :: second)) := by
  obtain ⟨c, code⟩ := Utf8.char_of_code (0x10000 + (high - 0xD800) * 0x400 + (low - 0xDC00)) (by omega)
  exact ⟨_, .pair one two upper lower code⟩

/-- A unit is a character, or becomes one with the lower half of a pair. -/
theorem unit_escaped {text : StrBuf} {code : Nat} (spelled : Hex4 text code) (fits : Fits false code) :
    ∃ more, Escaped (text ++ more) := by
  have small := Hex4.small spelled
  simp only [Fits, Bool.false_eq_true, false_iff] at fits
  by_cases upper : 0xD800 ≤ code ∧ code < 0xDC00
  · exact ⟨_, pair_escaped spelled low_spelled upper (by decide)⟩
  · obtain ⟨c, same⟩ := Utf8.char_of_code code (by omega)
    rw [← same] at spelled
    exact ⟨[], _, .unit (by rwa [List.append_nil])⟩

theorem parseUnicodeEscape_errs {position : Nat} (here : At input pos rest) :
    Errs (Stuck input rest Escaped) (parseUnicodeEscape input pos out position) := by
  rw [parseUnicodeEscape]
  refine Errs.bind ((parseHex4_errs here).weaken ?_) (parseHex4_gives here) ?_
  · intro error stuck
    refine stuck.completed ?_
    rintro spelled ⟨code, one, fits⟩
    exact unit_escaped one fits
  rintro ⟨first, fin⟩ ⟨text, after, rfl, ⟨spelled, fits⟩, there⟩
  have small := Hex4.small spelled
  simp only
  split
  next upper =>
    have whole := pair_escaped spelled low_spelled ⟨upper.1, by omega⟩ (by decide)
    split
    next none' =>
      exact errs_fail ⟨text, after, _, rfl, missing_length there none', whole, missing there none'⟩
    next b found =>
      split
      next => exact errs_fail ⟨text, after, _, rfl, there, whole, present there found⟩
      next backslash =>
        obtain ⟨after, rfl⟩ := there.cons found
        rw [show b = 0x5C from UInt8.toNat_inj.mp (not_not.mp backslash)] at here there ⊢
        have apart : text ++ 0x5C :: after = (text ++ [0x5C]) ++ after := by rw [List.append_assoc]; rfl
        have whole' : Escaped ((text ++ [0x5C]) ++ (0x75 :: [0x44, 0x43, 0x30, 0x30])) := by
          rw [List.append_assoc]
          exact whole
        split
        next none' =>
          exact errs_fail ⟨_, after, _, apart, missing_length there.next none', whole', missing there.next none'⟩
        next u found' =>
          split
          next => exact errs_fail ⟨_, after, _, apart, there.next, whole', present there.next found'⟩
          next letter =>
            obtain ⟨after, rfl⟩ := there.next.cons found'
            rw [show u = 0x75 from UInt8.toNat_inj.mp (not_not.mp letter)] at here there apart ⊢
            refine Errs.bind ((parseHex4_errs there.next.next).weaken ?_) (parseHex4_gives there.next.next) ?_
            · intro error stuck
              have joined : text ++ 0x5C :: 0x75 :: after = (text ++ [0x5C, 0x75]) ++ after := by rw [List.append_assoc]; rfl
              rw [joined]
              refine stuck.behind ?_
              rintro second ⟨low, two, fits'⟩
              refine ⟨[], ?_⟩
              rw [List.append_assoc, List.append_nil]
              exact pair_escaped spelled two ⟨upper.1, by omega⟩ (fits'.mp rfl)
            · rintro ⟨second, fin'⟩ ⟨text', after, rfl, ⟨spelled', fits'⟩, there'⟩
              have lower := fits'.mp rfl
              simp only
              rw [if_neg (by omega)]
              generalize sum : 65536 + (first - 55296) * 1024 + (second - 56320) = cp
              obtain ⟨c, code⟩ := Utf8.char_of_code cp (by omega)
              rw [← code, pushCodepoint_char]
              exact errs_ok
  next single =>
    have outside := mt fits.mpr Bool.false_ne_true
    obtain ⟨c, code⟩ := Utf8.char_of_code first (by omega)
    rw [← code, pushCodepoint_char]
    exact errs_ok

theorem tail_completes (lead i needed : Nat) : ∃ tail : StrBuf, tail.length = needed ∧ Checked lead i tail := by
  cases needed with
  | zero => exact ⟨[], rfl, nofun, nofun⟩
  | succ needed =>
    obtain ⟨second, tail, allowed⟩ : ∃ second : UInt8, Utf8.Tail second ∧ boundaryLead lead second.toNat = false := by
      by_cases late : lead = 224 ∨ lead = 240
      · refine ⟨0xA0, by rw [Utf8.Tail]; decide, ?_⟩
        rcases late with rfl | rfl <;> rfl
      · refine ⟨0x80, by rw [Utf8.Tail]; decide, ?_⟩
        simp only [boundaryLead, Bool.or_eq_false_iff, Bool.and_eq_false_iff, decide_eq_false_iff_not]
        exact ⟨⟨⟨.inl fun same => late (.inl same), .inr (by decide)⟩, .inl fun same => late (.inr same)⟩, .inr (by decide)⟩
    refine ⟨second :: List.replicate needed 0x80, by simp, ?_, ?_⟩
    · intro b member
      rcases List.mem_cons.mp member with rfl | later
      · exact tail
      · rw [List.eq_of_mem_replicate later, Utf8.Tail]
        decide
    · intro _ b first
      cases first
      exact allowed

theorem checkContinuations_errs {lead needed i : Nat} (here : At input (pos + i) rest) :
    Errs (Stuck input rest fun tail => tail.length = needed ∧ Checked lead i tail) (checkContinuations input pos lead needed i) := by
  induction needed generalizing i rest with
  | zero => exact errs_ok
  | succ needed ih =>
    obtain ⟨filling, size, checked⟩ := tail_completes lead i (needed + 1)
    rw [checkContinuations]
    split
    next none' =>
      have empty := missing here none'
      exact errs_fail (.here here (here.atEnd.mpr empty).symm filling ⟨size, checked⟩ empty)
    next b found =>
      split
      next => exact errs_fail (.here here rfl filling ⟨size, checked⟩ (present here found))
      next inside =>
        split
        next bad =>
          refine errs_fail (.here here ?_ filling ⟨size, checked⟩ (present here found))
          rw [bad.1]
          rfl
        next first =>
          obtain ⟨after, rfl⟩ := here.cons found
          refine (@ih after (i + 1) here.next).weaken fun error stuck => @Stuck.behind _ _ _ _ [b] _ stuck ?_
          rintro tail ⟨size, all, _⟩
          refine ⟨[], by simp [size], ?_, ?_⟩
          · rw [List.append_nil]
            intro d member
            rcases List.mem_cons.mp member with rfl | member
            · exact continuation_iff.mp (by simpa only [Bool.not_eq_true', Bool.not_eq_false] using inside)
            · exact all d member
          · intro start d head
            cases head
            exact Bool.not_eq_true _ ▸ fun bad => first ⟨start, bad⟩

/-- A piece of a string, as spelled. -/
def Spelled (text : StrBuf) : Prop := ∃ decoded, Piece text decoded

theorem copyUtf8_errs {lead : UInt8} (here : At input pos (lead :: rest)) (high : 128 ≤ lead.toNat) :
    Errs (Stuck input (lead :: rest) Spelled) (copyUtf8 input (pos + 1) out lead pos) := by
  have letter : Spelled [0x61] := ⟨_, .plain (.one (by decide)) fun b same => by cases same; decide⟩
  have copied : ∀ needed, (∀ tail : StrBuf, tail.length = needed → Checked lead.toNat 0 tail → Utf8.Scalar (lead :: tail)) →
      Errs (Stuck input (lead :: rest) Spelled)
        (checkContinuations input (pos + 1) lead.toNat needed 0 >>= fun _ => copyBytes input (out ++ [lead]) needed (pos + 1)) := by
    intro needed made
    refine Errs.bind ((@checkContinuations_errs input rest (pos + 1) lead.toNat needed 0 here.next).weaken ?_)
      (@checkContinuations_gives input rest (pos + 1) lead.toNat needed 0 here.next) ?_
    · refine fun error stuck => @Stuck.behind _ _ _ _ [lead] _ stuck ?_
      rintro tail ⟨size, checked⟩
      refine ⟨[], lead :: tail, ?_⟩
      rw [List.append_nil]
      exact piece_high (made tail size checked) high
    · rintro _ ⟨tail, after, rfl, rfl, checked⟩
      rw [copyBytes_past here.next]
      exact errs_ok
  rw [copyUtf8]
  split
  next => exact errs_fail (.here here rfl [0x61] letter (List.cons_ne_nil _ _))
  next needed chosen =>
    apply copied
    intro tail size checked
    exact (scalar_iff high).mpr ⟨checked, needed_sizes size chosen⟩

/-- Characters up to a closing quote. -/
def Ended (text : StrBuf) : Prop := ∃ decoded, Closed text decoded

theorem ended_quote : Ended [0x22] := ⟨[], [], rfl, .nil⟩

theorem Spelled.ended {text : StrBuf} (spelled : Spelled text) : Ended (text ++ [0x22]) := by
  obtain ⟨decoded, piece⟩ := spelled
  exact ⟨decoded ++ [], text ++ [], by rw [List.append_nil], .cons piece .nil⟩

theorem ended_piece {spelling decoded text : StrBuf} (piece : Piece spelling decoded) (ended : Ended text) :
    Ended (spelling ++ text) := by
  obtain ⟨rest, characters, rfl, others⟩ := ended
  exact ⟨decoded ++ rest, spelling ++ characters, (List.append_assoc ..).symm, .cons piece others⟩

theorem parseCharacters_errs {tries : Nat} (here : At input pos rest) :
    Errs (Stuck input rest Ended) (parseCharacters input tries pos out) := by
  induction tries generalizing pos rest out with
  | zero => exact errs_endless
  | succ tries ih =>
    -- The turns after one that took a piece.
    have turn : ∀ {spelling decoded after : StrBuf} {fin : Nat}, rest = spelling ++ after → Piece spelling decoded →
        At input fin after → Errs (Stuck input rest Ended) (parseCharacters input tries fin (out ++ decoded)) := by
      rintro spelling decoded after fin rfl piece there
      refine (ih there).weaken fun error stuck => stuck.behind fun text ended => ⟨[], ?_⟩
      rw [List.append_nil]
      exact ended_piece piece ended
    rw [parseCharacters]
    split
    next none' => exact errs_fail (.here here (here.atEnd.mpr (missing here none')).symm _ ended_quote (missing here none'))
    next b found =>
      obtain ⟨after, rfl⟩ := here.cons found
      split
      next => exact errs_ok
      next notQuote =>
        split
        next => exact errs_fail (.here here rfl _ ended_quote (List.cons_ne_nil _ _))
        next printable =>
          split
          next high =>
            refine Errs.bind ((copyUtf8_errs here high).weaken ?_) (copyUtf8_gives here.next high) ?_
            · exact fun error stuck => stuck.completed fun text spelled => ⟨[0x22], spelled.ended⟩
            · rintro ⟨whole, fin⟩ ⟨text, after, rfl, ⟨_, rfl, rfl, scalar⟩, there⟩
              exact turn rfl (piece_high scalar high) there
          next ascii =>
            split
            next notBackslash =>
              exact @turn [b] _ _ _ rfl (piece_ascii printable ascii notQuote notBackslash) here.next
            next backslash =>
              rw [show b = 0x5C from UInt8.toNat_inj.mp (not_not.mp backslash)] at here turn ⊢
              have quoted : Ended ([0x5C] ++ [0x22, 0x22]) := Spelled.ended ⟨_, .escape (.head _)⟩
              split
              next none' => exact errs_fail ⟨[0x5C], after, _, rfl, here.next, quoted, missing here.next none'⟩
              next e found' =>
                have more := present here.next found'
                obtain ⟨after, rfl⟩ := here.next.cons found'
                split
                next c escaped => exact @turn [0x5C, e] _ _ _ rfl (.escape (simpleEscape_iff.mp escaped)) here.next.next
                next =>
                  split
                  next letter =>
                    rw [show e = 0x75 from UInt8.toNat_inj.mp letter] at here turn ⊢
                    refine Errs.bind ((parseUnicodeEscape_errs here.next.next).weaken ?_)
                      (parseUnicodeEscape_gives here.next.next) ?_
                    · refine fun error stuck => @Stuck.behind _ _ _ _ [0x5C, 0x75] _ stuck ?_
                      exact fun text escaped => ⟨[0x22], Spelled.ended escaped⟩
                    · rintro ⟨whole, fin⟩ ⟨text, after, rfl, ⟨decoded, rfl, piece⟩, there⟩
                      exact turn rfl piece there
                  next => exact errs_fail ⟨[0x5C], e :: after, _, rfl, here.next, quoted, more⟩

theorem parseString_errs (here : At input pos rest) :
    Errs (Stuck input rest fun text => ∃ decoded, Quoted text decoded) (parseString input pos) := by
  have empty : ∃ decoded, Quoted [0x22, 0x22] decoded := ⟨[], [], rfl, .nil⟩
  rw [parseString]
  split
  next none' => exact errs_fail (.here here (here.atEnd.mpr (missing here none')).symm _ empty (missing here none'))
  next b found =>
    split
    next => exact errs_fail (.here here rfl _ empty (present here found))
    next quote =>
      obtain ⟨after, rfl⟩ := here.cons found
      rw [show b = 0x22 from UInt8.toNat_inj.mp (not_not.mp quote)] at here ⊢
      refine (parseCharacters_errs here.next).weaken fun error stuck => @Stuck.behind _ _ _ _ [0x22] _ stuck ?_
      rintro text ⟨decoded, characters, rfl, string⟩
      exact ⟨[], decoded, characters, by rw [List.append_nil]; rfl, string⟩

inductive Incomplete : StrBuf → Prop where
  | minus : Incomplete [0x2D]
  | point {sign integer} (signed : sign ∈ ([[], [0x2D]] : List StrBuf)) (whole : Integer integer) :
      Incomplete (sign ++ (integer ++ [0x2E]))
  | mark {sign integer fraction e sign'} (signed : sign ∈ ([[], [0x2D]] : List StrBuf)) (whole : Integer integer)
      (decimals : Fraction fraction) (mark : e ∈ ([0x65, 0x45] : StrBuf))
      (signed' : sign' ∈ ([[], [0x2B], [0x2D]] : List StrBuf)) : Incomplete (sign ++ (integer ++ (fraction ++ e :: sign')))

/-- A zero before which no digit may stand. -/
def Zero (text : StrBuf) : Prop := ∃ sign, sign ∈ ([[], [0x2D]] : List StrBuf) ∧ text = sign ++ [0x30]

/-- A text without a digit in front. -/
def NoDigit (text : StrBuf) : Prop := ∀ b, text.head? = some b → ¬Digit b

/-- Where a number is not accepted a digit is missing, or one stands behind a leading zero. -/
inductive Short (input rest : StrBuf) : ParseError → Prop where
  | incomplete {text left fin} (parts : rest = text ++ left) (there : At input fin left) (incomplete : Incomplete text)
      (other : NoDigit left) : Short input rest (.invalidNumber fin)
  | zero {text left fin b} (parts : rest = text ++ b :: left) (there : At input fin (b :: left)) (zero : Zero text)
      (digit : Digit b) : Short input rest (.invalidNumber fin)

theorem Incomplete.completed {text : StrBuf} (incomplete : Incomplete text) : Number (text ++ [0x30]) := by
  have zero : Digits [0x30] := ⟨List.cons_ne_nil _ _, fun b member => by
    rw [List.mem_singleton.mp member, Digit]
    decide⟩
  cases incomplete with
  | minus => exact @Number.made [0x2D] [0x30] [] [] (.tail _ (.head _)) .zero .absent .absent
  | @point sign integer signed whole =>
    have made := Number.made signed whole (.digits zero) .absent
    simpa only [List.append_assoc, List.cons_append, List.nil_append, List.append_nil] using made
  | mark signed whole decimals marked signed' =>
    have made := Number.made signed whole decimals (.digits marked signed' zero)
    simpa only [List.append_assoc, List.cons_append] using made

theorem digits_stop (here : At input pos rest) (none' : consumeDigits input pos - pos = 0) :
    consumeDigits input pos = pos ∧ NoDigit rest := by
  obtain ⟨digits, after, parts, all, there, size⟩ := here.skipped_reads consumeDigits_turn consumeDigits_atEnd
  obtain rfl : digits = [] := List.eq_nil_of_length_eq_zero (by omega)
  refine ⟨by simpa using size, fun b first digit => ?_⟩
  have turn := consumeDigits_turn pos b (here.head.trans first)
  rw [if_pos (isDigit_iff.mpr digit)] at turn
  obtain ⟨tail, rfl⟩ : ∃ tail, rest = b :: tail := by
    cases rest with
    | nil => cases first
    | cons c tail => cases first; exact ⟨tail, rfl⟩
  obtain ⟨digits, after', _, _, _, size'⟩ := here.next.skipped_reads consumeDigits_turn consumeDigits_atEnd
  rw [List.length_nil] at size
  omega

theorem parseInteger_errs (here : At input pos rest) :
    Errs (fun error => error = .invalidNumber pos ∧ NoDigit rest ∨
      ∃ b left, rest = 0x30 :: b :: left ∧ Digit b ∧ error = .invalidNumber (pos + 1)) (parseInteger input pos) := by
  rw [parseInteger]
  split
  next => exact errs_trap
  next b found =>
    obtain ⟨after, rfl⟩ := here.cons found
    split
    next zero =>
      rw [show b = 0x30 from UInt8.toNat_inj.mp zero] at here ⊢
      split
      next => exact errs_ok
      next d found' =>
        obtain ⟨after, rfl⟩ := here.next.cons found'
        split
        next digit => exact errs_fail (.inr ⟨d, after, rfl, isDigit_iff.mp digit, rfl⟩)
        next => exact errs_ok
    next notZero =>
      split
      next => exact errs_ok
      next neither =>
        refine errs_fail (.inl ⟨rfl, fun c first digit => ?_⟩)
        cases first
        obtain ⟨low, high⟩ := digit
        omega

theorem parseFraction_errs (here : At input pos rest) :
    Errs (fun error => ∃ left, rest = 0x2E :: left ∧ NoDigit left ∧ error = .invalidNumber (pos + 1)) (parseFraction input pos) := by
  rw [parseFraction]
  split
  next => exact errs_ok
  next b found =>
    split
    next point =>
      obtain ⟨after, rfl⟩ := here.cons found
      rw [show b = 0x2E from UInt8.toNat_inj.mp point] at here ⊢
      simp only
      split
      next none' =>
        obtain ⟨same, other⟩ := digits_stop here.next none'
        exact errs_fail ⟨after, rfl, other, by rw [same]⟩
      next => exact errs_ok
    next => exact errs_ok

theorem parseExponent_errs (here : At input pos rest) :
    Errs (fun error => ∃ e sign left fin, rest = e :: (sign ++ left) ∧ e ∈ ([0x65, 0x45] : StrBuf) ∧
      sign ∈ ([[], [0x2B], [0x2D]] : List StrBuf) ∧ At input fin left ∧ NoDigit left ∧ error = .invalidNumber fin)
      (parseExponent input pos) := by
  rw [parseExponent]
  split
  next => exact errs_ok
  next e found =>
    split
    next mark =>
      have listed := mark_listed mark
      obtain ⟨after, rfl⟩ := here.cons found
      -- Where the digits would begin, with the sign before them.
      have signed : ∀ digits sign left, after = sign ++ left → sign ∈ ([[], [0x2B], [0x2D]] : List StrBuf) → At input digits left →
          Errs (fun error => ∃ e' sign left fin, e :: after = e' :: (sign ++ left) ∧ e' ∈ ([0x65, 0x45] : StrBuf) ∧
            sign ∈ ([[], [0x2B], [0x2D]] : List StrBuf) ∧ At input fin left ∧ NoDigit left ∧ error = .invalidNumber fin)
            (if consumeDigits input digits - digits = 0 then fail (.invalidNumber (consumeDigits input digits))
            else .ok (consumeDigits input digits)) := by
        rintro digits sign left rfl allowed there
        split
        next none' =>
          obtain ⟨same, other⟩ := digits_stop there none'
          exact errs_fail ⟨e, sign, left, digits, rfl, listed, allowed, there, other, by rw [same]⟩
        next => exact errs_ok
      simp only
      split
      next => exact signed (pos + 1) [] after rfl (.head _) here.next
      next sign found' =>
        obtain ⟨after', rfl⟩ := here.next.cons found'
        split
        next either =>
          exact signed (pos + 2) [sign] after' rfl (sign_listed either) here.next.next
        next => exact signed (pos + 1) [] (sign :: after') rfl (.head _) here.next
    next => exact errs_ok

theorem parseNumber_errs (here : At input pos rest) (first : ∀ b, rest.head? = some b → b = 0x2D ∨ Digit b) :
    Errs (Short input rest) (parseNumber input pos) := by
  rw [parseNumber]
  split
  next => exact errs_trap
  next b found =>
    obtain ⟨after, rfl⟩ := here.cons found
    obtain ⟨start, same⟩ : ∃ start, start = if b.toNat = 45 then pos + 1 else pos := ⟨_, rfl⟩
    simp only [← same]
    split
    next ended =>
      rw [show b = 0x2D from UInt8.toNat_inj.mp ended.1] at here ⊢
      have size := here.next.length
      rw [if_pos ended.1] at same
      have empty : after = [] := List.eq_nil_of_length_eq_zero (by omega)
      subst empty
      exact errs_fail (@Short.incomplete _ _ [0x2D] _ _ rfl (by rw [← size]; exact here.next) .minus nofun)
    next more =>
      -- The sign, and what is left at the whole part.
      have signed : ∃ sign whole, b :: after = sign ++ whole ∧ sign ∈ ([[], [0x2D]] : List StrBuf) ∧ whole ≠ [] ∧
          At input start whole ∧ (NoDigit whole → sign = [0x2D]) := by
        rw [same] at more ⊢
        split
        next minus =>
          rw [if_pos minus] at more
          rw [show b = 0x2D from UInt8.toNat_inj.mp minus] at here ⊢
          refine ⟨[0x2D], after, rfl, .tail _ (.head _), ?_, here.next, fun _ => rfl⟩
          intro empty
          have ended := here.next.atEnd.mpr empty
          omega
        next notMinus =>
          refine ⟨[], b :: after, rfl, .head _, List.cons_ne_nil _ _, here, fun none' => ?_⟩
          rcases first b rfl with rfl | digit
          · exact absurd rfl notMinus
          · exact absurd digit (none' b rfl)
      obtain ⟨sign, whole, parts, allowed, some', there, minus⟩ := signed
      rw [parts]
      refine Errs.bind ((parseInteger_errs there).weaken ?_) (parseInteger_gives there some') ?_
      · rintro error (⟨rfl, other⟩ | ⟨d, left, rfl, digit, rfl⟩)
        · rw [minus other]
          exact .incomplete rfl there .minus other
        · exact .zero (by rw [List.append_assoc]; rfl) there.next ⟨sign, allowed, rfl⟩ digit
      rintro fin ⟨integer, rest, rfl, whole, there⟩
      refine Errs.bind ((parseFraction_errs there).weaken ?_) (parseFraction_gives there) ?_
      · rintro error ⟨left, rfl, other, rfl⟩
        exact .incomplete (by simp only [List.append_assoc]; rfl) there.next (.point allowed whole) other
      rintro fin ⟨fraction, rest, rfl, decimals, there⟩
      refine Errs.bind ((parseExponent_errs there).weaken ?_) (parseExponent_gives there) ?_
      · rintro error ⟨e, sign', left, fin', rfl, marked, signed', there', other, rfl⟩
        exact .incomplete (by simp only [List.append_assoc, List.cons_append]) there'
          (.mark allowed whole decimals marked signed') other
      rintro fin -
      split
      next => exact errs_ok
      next => exact errs_trap

end Rue.Proofs.Text.Errors
