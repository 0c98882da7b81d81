import Rue.Proofs.Lexing.Integers

/-! One match of the scanner: what each rule makes of its text, and where it
leaves the scanner. -/

namespace Rue.Proofs.Lexing
open Rue.Lib Rue.Lexing

inductive Piece where
  | gap (text : List Char)
  | unmatched (c : Char)
  | lexeme (rule : Rule) (text : List Char) (outcome : Except LexError TokenKind)

namespace Piece

def text : Piece → List Char
  | .gap text | .lexeme _ text _ => text
  | .unmatched c => [c]

def outcome : Piece → Option (Except LexError TokenKind)
  | .gap _ => none
  | .unmatched _ => some (.error .unexpectedCharacter)
  | .lexeme _ _ outcome => some outcome

end Piece

/-- What a rule makes of a text, with the text after it, and an interner that
knows its strings. -/
def LexemeOf (strings : List (List Char)) (rest : List Char) (text : List Char) (outcome : Except LexError TokenKind) :
    Rule → Prop
  | .skip => False
  | .token kind => outcome = .ok kind ∧ ∃ spelling, (spelling, kind) ∈ wordTokens ++ operatorTokens ∧ text = spelling.toList
  | .decimal => (∀ c ∈ text, isDigitOrSeparator c) ∧
      outcome = if literalValue 10 text ≤ u64Max then .ok (.int (literalValue 10 text)) else .error .invalidInteger
  | .based => ∃ marker digits base radix, text = '0' :: marker :: digits ∧ baseOf marker.toLower = some (base, radix) ∧
      outcome = if marker.isUpper then .error (.uppercaseBasePrefix marker)
        else (basedOutcome base radix digits 2 0 false).map .int
  | .byte => ∃ taken, text = 'b' :: '\'' :: taken ∧ OneLine taken ∧
      (∀ closed, closing '\'' (taken ++ rest) = some closed → taken = closed) ∧
      ((∃ value content, outcome = .ok (.int value) ∧ taken = content ++ ['\''] ∧ ByteContent content value) ∨
        ∃ reason, outcome = .error (.malformedByteLiteral reason))
  | .float => (∃ spur, outcome = .ok (.float spur) ∧ strings[spur]? = some (text.filter (· ≠ '_'))) ∨
      ∃ error, outcome = .error (.internerExhausted error)
  | .leadingDot => outcome = .error (.malformedFloatLiteral (.leadingDot text))
  | .emptyExponent => outcome = .error (.malformedFloatLiteral (.missingExponent text))
  | .string => ∃ taken, text = '"' :: taken ∧ OneLine taken ∧
      (∀ closed, closing '"' (taken ++ rest) = some closed → taken = closed) ∧
      ((∃ spur content value, outcome = .ok (.string spur) ∧ taken = content ++ ['"'] ∧
          unescape content = some value ∧ strings[spur]? = some value) ∨
        outcome = .error .unterminatedString ∨ (∃ error, outcome = .error (.internerExhausted error)) ∨
        ∃ offset escape, outcome = .error (.invalidStringEscape offset escape) ∧
          offset + escape.utf8Size ≤ utf8Len taken)
  | .ident => (∃ spur, outcome = .ok (.ident spur) ∧ strings[spur]? = some text) ∨
      ∃ error, outcome = .error (.internerExhausted error)

/-- A skipped match: white space, or a comment. -/
def Skipped (text : List Char) : Prop := ∃ regex, (regex, Rule.skip) ∈ rules ∧ regex.Matches text

def Piece.Valid (strings : List (List Char)) (rest : List Char) : Piece → Prop
  | .gap text => Skipped text
  | .unmatched _ => True
  | .lexeme rule text outcome => text ≠ [] ∧ LexemeOf strings rest text outcome rule

section Later

variable {earlier later : List (List Char)} {rest text : List Char} {outcome : Except LexError TokenKind}

theorem LexemeOf.mono (grows : earlier <+: later) {rule : Rule} (made : LexemeOf earlier rest text outcome rule) :
    LexemeOf later rest text outcome rule := by
  have resolve {spur : Spur} {text : List Char} (known : earlier[spur]? = some text) : later[spur]? = some text := by
    obtain ⟨more, rfl⟩ := grows
    rw [List.getElem?_append_left (List.getElem?_eq_some_iff.mp known).1, known]
  cases rule with
  | skip | token | decimal | based | byte | leadingDot | emptyExponent => exact made
  | float | ident =>
    rcases made with ⟨spur, ok, known⟩ | failed
    · exact .inl ⟨spur, ok, resolve known⟩
    · exact .inr failed
  | string =>
    obtain ⟨taken, shape, oneLine, closed, ⟨spur, content, value, ok, ends, escapes, known⟩ | failed⟩ := made
    · exact ⟨taken, shape, oneLine, closed, .inl ⟨spur, content, value, ok, ends, escapes, resolve known⟩⟩
    · exact ⟨taken, shape, oneLine, closed, .inr failed⟩

theorem Piece.Valid.mono (grows : earlier <+: later) {piece : Piece} (valid : piece.Valid earlier rest) :
    piece.Valid later rest := by
  cases piece with
  | gap | unmatched => exact valid
  | lexeme => exact ⟨valid.1, valid.2.mono grows⟩

end Later

/-- A rule of the table, by what its pattern matches. -/
def RuleText (text : List Char) : Rule → Prop
  | .skip => Skipped text
  | .token kind => ∃ spelling, (spelling, kind) ∈ wordTokens ++ operatorTokens ∧ text = spelling.toList
  | .decimal => digitRun.Matches text
  | .based => basedPattern.Matches text
  | .byte => text = ['b', '\'']
  | .string => text = ['"']
  | .float | .leadingDot | .emptyExponent | .ident => True

theorem spelled_text {tokens : List (String × TokenKind)} {regex : Regex Char} {rule : Rule} {text : List Char}
    (listed : (regex, rule) ∈ spelled tokens) (matched : regex.Matches text) :
    ∃ spelling kind, rule = .token kind ∧ (spelling, kind) ∈ tokens ∧ text = spelling.toList := by
  obtain ⟨⟨spelling, kind⟩, known, shape⟩ := List.mem_map.mp listed
  cases shape
  exact ⟨spelling, kind, rfl, known, Regex.matches_literal.mp matched⟩

theorem ruleText_of_matches {regex : Regex Char} {rule : Rule} {text : List Char} (listed : (regex, rule) ∈ rules)
    (matched : regex.Matches text) : RuleText text rule := by
  have known := listed
  simp only [rules, List.mem_append, List.mem_cons, List.not_mem_nil, or_false, Prod.mk.injEq] at known
  rcases known with ((skips | word) | middle) | operator
  · rcases skips with ⟨_, rfl⟩ | ⟨_, rfl⟩
    all_goals exact ⟨regex, listed, matched⟩
  · obtain ⟨spelling, kind, rfl, known, same⟩ := spelled_text word matched
    exact ⟨spelling, List.mem_append_left _ known, same⟩
  · rcases middle with ⟨rfl, rfl⟩ | ⟨rfl, rfl⟩ | ⟨rfl, rfl⟩ | ⟨_, rfl⟩ | ⟨_, rfl⟩ | ⟨_, rfl⟩ | ⟨_, rfl⟩ | ⟨rfl, rfl⟩ | ⟨_, rfl⟩
    · exact matched
    · exact matched
    · exact Regex.matches_literal.mp matched
    all_goals first | exact trivial | exact Regex.matches_literal.mp matched
  · obtain ⟨spelling, kind, rfl, known, same⟩ := spelled_text operator matched
    exact ⟨spelling, List.mem_append_right _ known, same⟩

/-- Each callback ends without a panic, in the line of its token where the token
was malformed, and yields what its rule makes of the text. -/
theorem callback_lexeme {scanner : Scanner} {rule : Rule} (matched : RuleText scanner.slice rule)
    (lexes : rule ≠ .skip) (fits : utf8Len scanner.slice + utf8Len scanner.remainder < 2 ^ 32) :
    ∃ taken left extras outcome, callback scanner rule =
        some ({ scanner with slice := scanner.slice ++ taken, remainder := left, extras }, outcome) ∧
      scanner.remainder = taken ++ left ∧ Later scanner.extras extras ∧
      LexemeOf extras.strings left (scanner.slice ++ taken) outcome rule := by
  have stays (outcome : Except LexError TokenKind) (made : LexemeOf scanner.extras.strings scanner.remainder scanner.slice outcome rule)
      (calls : callback scanner rule = some (scanner, outcome)) : ∃ taken left extras outcome, callback scanner rule =
        some ({ scanner with slice := scanner.slice ++ taken, remainder := left, extras }, outcome) ∧
      scanner.remainder = taken ++ left ∧ Later scanner.extras extras ∧
      LexemeOf extras.strings left (scanner.slice ++ taken) outcome rule := by
    refine ⟨[], scanner.remainder, scanner.extras, outcome, ?_, rfl, List.prefix_refl _, ?_⟩
    · rw [List.append_nil, calls]
    · rwa [List.append_nil]
  cases rule with
  | skip => exact absurd rfl lexes
  | token kind => exact stays (.ok kind) ⟨rfl, matched⟩ rfl
  | decimal =>
    have digits := digitRun_matches matched
    refine stays _ ⟨digits, rfl⟩ ?_
    rw [callback, parseDecimalLiteral_eq digits, intResult, Option.map_some]
    split <;> rfl
  | based =>
    obtain ⟨marker, digits, base, radix, shape, known, parsed⟩ := parseBasedLiteral_eq matched (by omega)
    refine stays _ ⟨marker, digits, base, radix, shape, known, rfl⟩ ?_
    rw [callback, parsed, intResult, Option.map_some]
    split <;> rfl
  | byte =>
    obtain ⟨taken, left, outcome, reads, read⟩ := processByteLiteral_read scanner
    refine ⟨taken, left, scanner.extras, outcome, reads, read.whole, List.prefix_refl _, taken, ?_, read.oneLine, ?_,
      read.outcome⟩
    · rw [show scanner.slice = ['b', '\''] from matched]
      rfl
    · rw [← read.whole]
      exact read.closed
  | string =>
    have one : utf8Len scanner.slice = 1 := by
      rw [show scanner.slice = ['"'] from matched]
      rfl
    obtain ⟨taken, left, extras, outcome, reads, read⟩ := processStringFromQuote_read scanner (by omega)
    refine ⟨taken, left, extras, outcome, reads, read.whole, read.later, taken, ?_, read.oneLine, ?_, read.outcome⟩
    · rw [show scanner.slice = ['"'] from matched]
      rfl
    · rw [← read.whole]
      exact read.closed
  | leadingDot => exact stays _ rfl rfl
  | emptyExponent => exact stays _ rfl rfl
  | float =>
    obtain ⟨extras, outcome, interns, interned⟩ := Scanner.intern_interned scanner (scanner.slice.filter (· ≠ '_')) .float
    refine ⟨[], scanner.remainder, extras, outcome, ?_, rfl, interned.later, ?_⟩
    · rw [List.append_nil]
      exact congrArg some interns
    · rw [List.append_nil]
      exact interned.outcome
  | ident =>
    obtain ⟨extras, outcome, interns, interned⟩ := Scanner.intern_interned scanner scanner.slice .ident
    refine ⟨[], scanner.remainder, extras, outcome, ?_, rfl, interned.later, ?_⟩
    · rw [List.append_nil]
      exact congrArg some interns
    · rw [List.append_nil]
      exact interned.outcome

/-- The place an error names lies in its token. -/
def Within (text : List Char) : LexError → Prop
  | .invalidStringEscape offset escape => offset + 1 + escape.utf8Size ≤ utf8Len text
  | .invalidDigitForBase digit _ offset => offset + digit.utf8Size ≤ utf8Len text
  | _ => True

theorem basedOutcome_within {base : String} {radix offset : Nat} {digits text : List Char} {error : LexError}
    (failed : basedOutcome base radix digits offset 0 false = .error error)
    (length : offset + utf8Len digits ≤ utf8Len text) : Within text error := by
  rw [basedOutcome] at failed
  split at failed
  · cases failed
    exact trivial
  · split at failed
    next c after stops =>
      cases failed
      have parts := @List.takeWhile_append_dropWhile _ (isNumeral radix) digits
      rw [stops] at parts
      rw [← parts, utf8Len_append, utf8Len_cons] at length
      show offset + utf8Len (digits.takeWhile (isNumeral radix)) + c.utf8Size ≤ utf8Len text
      omega
    · split at failed
      · cases failed
      · cases failed
        exact trivial

theorem within_of_lexeme {rule : Rule} {error : LexError} {strings : List (List Char)} {rest text : List Char}
    (made : LexemeOf strings rest text (.error error) rule) : Within text error := by
  cases rule with
  | skip => exact made.elim
  | token => cases made.1
  | leadingDot | emptyExponent =>
    cases made
    exact trivial
  | decimal =>
    have shape := made.2
    split at shape <;> cases shape
    exact trivial
  | based =>
    obtain ⟨marker, digits, base, radix, rfl, known, shape⟩ := made
    split at shape
    · cases shape
      exact trivial
    next lower =>
      cases parsed : basedOutcome base radix digits 2 0 false with
      | ok value =>
        rw [parsed] at shape
        cases shape
      | error failed =>
        rw [parsed] at shape
        cases shape
        apply basedOutcome_within parsed
        have zero : Char.utf8Size '0' = 1 := rfl
        have positive := marker.utf8Size_pos
        simp only [utf8Len_cons]
        omega
  | byte =>
    obtain ⟨_, -, -, -, ⟨_, _, shape, -⟩ | ⟨_, shape⟩⟩ := made
    · cases shape
    · cases shape
      exact trivial
  | float | ident =>
    rcases made with ⟨_, shape, -⟩ | ⟨_, shape⟩
    · cases shape
    · cases shape
      exact trivial
  | string =>
    obtain ⟨taken, rfl, -, -, ⟨_, _, _, ok, -⟩ | ok | ⟨_, ok⟩ | ⟨_, _, ok, within⟩⟩ := made
    · cases ok
    · cases ok
      exact trivial
    · cases ok
      exact trivial
    · cases ok
      have quote : Char.utf8Size '"' = 1 := rfl
      simp only [Within, utf8Len_cons]
      omega

/-- The diagnostic of an error points within its token. -/
theorem diagnose_some {scanner : Scanner} {error : LexError} (within : Within scanner.slice error)
    (fits : scanner.stop < 2 ^ 32) : ∃ kind start stop, diagnose scanner error = some (kind, start, stop) := by
  have length : scanner.stop = scanner.start + utf8Len scanner.slice := rfl
  have starts := spanOffset_of_lt (show scanner.start < 2 ^ 32 by omega)
  have stops := spanOffset_of_lt fits
  have whole (kind : ErrorKind) : (do
      let start ← spanOffset scanner.start
      let stop ← spanOffset scanner.stop
      return (kind, start, stop)) = some (kind, scanner.start, scanner.stop) := by
    rw [starts, stops]
    rfl
  cases error with
  | unexpectedCharacter | invalidInteger | unterminatedString | uppercaseBasePrefix | emptyBasedLiteral
  | malformedByteLiteral | malformedFloatLiteral => exact ⟨_, _, _, whole _⟩
  | internerExhausted kind => cases kind <;> exact ⟨_, _, _, whole _⟩
  | invalidStringEscape offset escape =>
    have inside : offset + 1 + escape.utf8Size ≤ utf8Len scanner.slice := within
    refine ⟨.invalidStringEscape escape, scanner.start + offset, scanner.start + offset + 1 + escape.utf8Size, ?_⟩
    simp only [diagnose, starts, Option.bind_eq_bind, Option.bind_some,
      addOffsets_of_lt (show scanner.start + offset < 2 ^ 32 by omega),
      addOffsets_of_lt (show scanner.start + offset + 1 < 2 ^ 32 by omega),
      addOffsets_of_lt (show scanner.start + offset + 1 + escape.utf8Size < 2 ^ 32 by omega)]
    rfl
  | invalidDigitForBase digit base offset =>
    have inside : offset + digit.utf8Size ≤ utf8Len scanner.slice := within
    refine ⟨.invalidDigitForBase digit base, scanner.start + offset, scanner.start + offset + digit.utf8Size, ?_⟩
    simp only [diagnose, starts, Option.bind_eq_bind, Option.bind_some,
      addOffsets_of_lt (show scanner.start + offset < 2 ^ 32 by omega),
      addOffsets_of_lt (show scanner.start + offset + digit.utf8Size < 2 ^ 32 by omega)]
    rfl

/-- A match found after skipped ones: the scanner has taken it over, and the
callback has read what belongs to it. -/
structure Found (scanner after : Scanner) (gaps : List (List Char)) (piece : Piece)
    (outcome : Except LexError TokenKind) : Prop where
  passed : after.passed = scanner.passed ++ scanner.slice ++ gaps.flatten
  slice : after.slice = piece.text
  whole : scanner.remainder = gaps.flatten ++ piece.text ++ after.remainder
  nonempty : piece.text ≠ []
  later : Later scanner.extras after.extras
  valid : piece.Valid after.extras.strings after.remainder
  yields : piece.outcome = some outcome
  within : ∀ error, outcome = .error error → Within piece.text error

theorem ruleText_of_longest {text : List Char} {rule : Rule} {count : Nat}
    (longest : Regex.Longest rules text (some (rule, count))) : 0 < count ∧ count ≤ text.length ∧
      RuleText (text.take count) rule := by
  obtain ⟨positive, within, ⟨before, regex, after, table, matched, -⟩, -⟩ := longest
  have listed : (regex, rule) ∈ rules := by
    rw [table]
    exact List.mem_append_right _ List.mem_cons_self
  exact ⟨positive, within, ruleText_of_matches listed matched⟩

section Scan

variable {scan : List Char → Option (Rule × Nat)} {scanner : Scanner} {rule : Rule} {count : Nat}

theorem lexeme_found (longest : Regex.Longest rules scanner.remainder (some (rule, count))) (lexes : rule ≠ .skip)
    (fits : utf8Len scanner.remainder < 2 ^ 32) : ∃ after piece outcome,
      callback (scanner.trivia.take count) rule = some (after, outcome) ∧ Found scanner after [] piece outcome := by
  obtain ⟨positive, within, matched⟩ := ruleText_of_longest longest
  have parts := List.take_append_drop count scanner.remainder
  have length : utf8Len (scanner.remainder.take count) + utf8Len (scanner.remainder.drop count) =
      utf8Len scanner.remainder := by
    rw [← utf8Len_append, parts]
  obtain ⟨taken, left, extras, outcome, calls, whole, later, made⟩ := @callback_lexeme (scanner.trivia.take count) rule
    matched lexes (lt_of_eq_of_lt length fits)
  have read : scanner.remainder.drop count = taken ++ left := whole
  have nonempty : scanner.remainder.take count ++ taken ≠ [] := by
    intro nothing
    have none := (List.append_eq_nil_iff.mp nothing).1
    have size := congrArg List.length none
    rw [List.length_take, List.length_nil] at size
    omega
  refine ⟨_, .lexeme rule (scanner.remainder.take count ++ taken) outcome, outcome, calls, ?_, rfl, ?_, nonempty, later,
    ⟨nonempty, made⟩, rfl, ?_⟩
  · exact (List.append_nil _).symm
  · rw [List.flatten_nil, List.nil_append]
    show scanner.remainder = _
    rw [Piece.text, List.append_assoc, ← read, parts]
  · rintro error rfl
    exact within_of_lexeme made

/-- The next match of a text, or none when only skipped matches are left. -/
theorem lexToken_found (assumed : ∀ text, Regex.Longest rules text (scan text)) (fuel : Nat) (scanner : Scanner)
    (enough : scanner.remainder.length < fuel) (fits : utf8Len scanner.remainder < 2 ^ 32) :
    ∃ gaps, (∀ gap ∈ gaps, Skipped gap) ∧
      ((scanner.remainder = gaps.flatten ∧ lexToken scan fuel scanner = some none) ∨
        ∃ after piece outcome, lexToken scan fuel scanner = some (some (after, outcome)) ∧
          Found scanner after gaps piece outcome) := by
  induction fuel generalizing scanner with
  | zero => omega
  | succ fuel ih =>
    have same : scanner.trivia.remainder = scanner.remainder := rfl
    rw [lexToken]
    cases read : scanner.remainder with
    | nil =>
      refine ⟨[], by simp, .inl ⟨rfl, ?_⟩⟩
      rw [same, read]
    | cons c rest =>
      rw [same, read]
      dsimp only
      rw [← read]
      have longest := assumed scanner.remainder
      cases found : scan scanner.remainder with
      | none =>
        refine ⟨[], by simp, .inr ⟨scanner.trivia.take 1, .unmatched c, _, rfl, ?_⟩⟩
        refine ⟨(List.append_nil _).symm, ?_, ?_, List.cons_ne_nil _ _, List.prefix_refl _, trivial, rfl, ?_⟩
        · rw [Scanner.take, same, read]
          rfl
        · rw [Scanner.take, same, read]
          rfl
        · rintro error ⟨⟩
          exact trivial
      | some cut =>
        obtain ⟨rule, count⟩ := cut
        rw [found] at longest
        by_cases skips : rule = .skip
        · subst skips
          obtain ⟨positive, within, skipped⟩ := ruleText_of_longest longest
          have parts := List.take_append_drop count scanner.remainder
          have shorter : (scanner.trivia.take count).remainder.length < fuel := by
            show (scanner.remainder.drop count).length < fuel
            rw [List.length_drop]
            omega
          have fewer : utf8Len (scanner.trivia.take count).remainder < 2 ^ 32 := by
            show utf8Len (scanner.remainder.drop count) < 2 ^ 32
            rw [← parts, utf8Len_append] at fits
            omega
          obtain ⟨gaps, skippedAll, outcome⟩ := ih (scanner.trivia.take count) shorter fewer
          refine ⟨scanner.remainder.take count :: gaps, List.forall_mem_cons.mpr ⟨skipped, skippedAll⟩, ?_⟩
          rcases outcome with ⟨rest, ended⟩ | ⟨after, piece, outcome, lexed, result⟩
          · have last : scanner.remainder.drop count = gaps.flatten := rest
            refine .inl ⟨?_, ended⟩
            rw [List.flatten_cons, ← last, parts]
          · have last : scanner.remainder.drop count = gaps.flatten ++ piece.text ++ after.remainder := result.whole
            refine .inr ⟨after, piece, outcome, lexed, ?_, result.slice, ?_, result.nonempty, result.later, result.valid,
              result.yields, result.within⟩
            · rw [result.passed, List.flatten_cons]
              show scanner.passed ++ scanner.slice ++ ([] ++ scanner.remainder.take count) ++ gaps.flatten = _
              rw [List.nil_append, List.append_assoc]
            · rw [List.flatten_cons, List.append_assoc, List.append_assoc, ← List.append_assoc gaps.flatten, ← last, parts]
        · obtain ⟨after, piece, outcome, calls, result⟩ := lexeme_found longest skips fits
          refine ⟨[], by simp, .inr ⟨after, piece, outcome, ?_, result⟩⟩
          cases rule with
          | skip => exact absurd rfl skips
          | token | decimal | based | byte | float | leadingDot | emptyExponent | string | ident =>
            exact congrArg (Option.map some) calls

end Scan

end Rue.Proofs.Lexing
