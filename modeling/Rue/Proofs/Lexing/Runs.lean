import Rue.Proofs.Lexing.Tokens

/-! A whole file: the run cuts it into pieces, whose tokens are where the pieces
are, and the fragments of its tokens are the file again. -/

namespace Rue.Proofs.Lexing
open Rue.Lib Rue.Lexing

def texts (pieces : List Piece) : List Char := (pieces.map Piece.text).flatten

/-- The token of a piece that starts at an offset. -/
def tokenOf (offset : Nat) (piece : Piece) : List Token :=
  match piece.outcome with
  | some (.ok kind) => [{ kind, start := offset, stop := offset + utf8Len piece.text }]
  | _ => []

def tokensOf : Nat → List Piece → List Token
  | _, [] => []
  | offset, piece :: rest => tokenOf offset piece ++ tokensOf (offset + utf8Len piece.text) rest

/-- Every piece is what its rule makes of it, before the text that follows. -/
def AllValid (strings : List (List Char)) (left : List Char) : List Piece → Prop
  | [] => True
  | piece :: rest => piece.Valid strings (texts rest ++ left) ∧ AllValid strings left rest

def Clean (pieces : List Piece) : Prop := ∀ piece ∈ pieces, ∀ error, piece.outcome ≠ some (.error error)

section Pieces

variable {strings more : List (List Char)} {left : List Char} {first second : List Piece} {offset : Nat}

theorem texts_append : texts (first ++ second) = texts first ++ texts second := by
  simp [texts]

theorem tokensOf_append :
    tokensOf offset (first ++ second) = tokensOf offset first ++ tokensOf (offset + utf8Len (texts first)) second := by
  induction first generalizing offset with
  | nil => rfl
  | cons piece first ih =>
    rw [List.cons_append, tokensOf, tokensOf, ih, List.append_assoc, Nat.add_assoc, ← utf8Len_append]
    rfl

theorem allValid_append : AllValid strings left (first ++ second) ↔
    AllValid strings (texts second ++ left) first ∧ AllValid strings left second := by
  induction first with
  | nil => simp [AllValid]
  | cons piece first ih => rw [List.cons_append, AllValid, AllValid, ih, texts_append, List.append_assoc, and_assoc]

theorem clean_append : Clean (first ++ second) ↔ Clean first ∧ Clean second := List.forall_mem_append

variable {gaps : List (List Char)}

theorem texts_gaps : texts (gaps.map .gap) = gaps.flatten := by
  rw [texts, List.map_map]
  exact congrArg List.flatten (List.map_id gaps)

theorem tokensOf_gaps : tokensOf offset (gaps.map .gap) = [] := by
  induction gaps generalizing offset with
  | nil => rfl
  | cons gap gaps ih => exact ih

theorem allValid_gaps (skipped : ∀ gap ∈ gaps, Skipped gap) : AllValid strings left (gaps.map .gap) := by
  induction gaps with
  | nil => exact trivial
  | cons gap gaps ih =>
    obtain ⟨first, rest⟩ := List.forall_mem_cons.mp skipped
    exact ⟨first, ih rest⟩

theorem clean_gaps : Clean (gaps.map .gap) := by
  intro piece listed error
  obtain ⟨gap, -, rfl⟩ := List.mem_map.mp listed
  intro none
  cases none

end Pieces

structure Ran (state final : Collected) (pieces : List Piece) (left : List Char) : Prop where
  whole : state.scanner.remainder = texts pieces ++ left
  tokens : final.tokens = state.tokens ++ tokensOf state.scanner.stop pieces
  later : Later state.scanner.extras final.scanner.extras
  valid : AllValid final.scanner.extras.strings left pieces
  clean : final.errors = [] → left = [] ∧ Clean pieces ∧ state.errors = []
  stopped : left ≠ [] → ∃ error ∈ final.errors, error.kind.isResource

/-- A loop that ends for want of resources leaves the text after it. -/
theorem Ran.nothing {state : Collected} (failed : ∃ error ∈ state.errors, error.kind.isResource) :
    Ran state state [] state.scanner.remainder where
  whole := rfl
  tokens := (List.append_nil _).symm
  later := List.prefix_refl _
  valid := trivial
  clean := by
    intro none
    obtain ⟨error, listed, -⟩ := failed
    rw [none] at listed
    cases listed
  stopped := fun _ => failed

/-- Diagnostics are summarized only after some. -/
def Summed (state : Collected) : Prop := state.diagnosticsSummarized = true → state.errors ≠ []

theorem recordError_records (state : Collected) (summed : Summed state) (kind : ErrorKind) (start stop : Nat) :
    ∃ errors summarized goes, recordError state kind start stop =
        ({ state with errors, diagnosticsSummarized := summarized }, goes) ∧ errors ≠ [] ∧
      (goes = false → ∃ error ∈ errors, error.kind.isResource) := by
  have pushed (error : CompileError) : state.errors ++ [error] ≠ [] :=
    List.append_ne_nil_of_right_ne_nil _ (List.cons_ne_nil _ _)
  rw [recordError]
  split
  next resource =>
    exact ⟨_, _, false, rfl, pushed _, fun _ => ⟨_, List.mem_append_right _ (List.mem_singleton_self _), resource⟩⟩
  next =>
    split
    next summarized => exact ⟨state.errors, _, true, rfl, summed summarized, fun ends => by cases ends⟩
    next =>
      split
      · exact ⟨_, true, true, rfl, pushed _, fun ends => by cases ends⟩
      · exact ⟨_, _, true, rfl, pushed _, fun ends => by cases ends⟩

section Loop

variable {scan : List Char → Option (Rule × Nat)} {state final : Collected} {after : Scanner}
  {gaps : List (List Char)} {piece : Piece} {outcome : Except LexError TokenKind}

theorem Found.stop (found : Found state.scanner after gaps piece outcome) :
    after.start = state.scanner.stop + utf8Len gaps.flatten ∧ after.stop = after.start + utf8Len piece.text ∧
      after.stop + utf8Len after.remainder = state.scanner.stop + utf8Len state.scanner.remainder ∧
      after.remainder.length < state.scanner.remainder.length := by
  have start : after.start = state.scanner.stop + utf8Len gaps.flatten := by
    rw [Scanner.start, found.passed, utf8Len_append, utf8Len_append]
    rfl
  have stop : after.stop = after.start + utf8Len piece.text := by
    rw [Scanner.stop, found.slice]
    rfl
  refine ⟨start, stop, ?_, ?_⟩
  · rw [stop, start, found.whole, utf8Len_append, utf8Len_append]
    omega
  · have some' := List.length_pos_iff.mpr found.nonempty
    rw [found.whole, List.length_append, List.length_append]
    omega

/-- A step of the loop, and what it has made of the text after that. -/
theorem Found.ran (found : Found state.scanner after gaps piece outcome) (skipped : ∀ gap ∈ gaps, Skipped gap)
    {next : Collected} {pieces : List Piece} {left : List Char} (scanner : next.scanner = after)
    (tokens : next.tokens = state.tokens ++ tokenOf after.start piece) (errors : next.errors = [] →
      state.errors = [] ∧ ∀ error, outcome ≠ .error error) (ran : Ran next final pieces left) :
    Ran state final (gaps.map .gap ++ piece :: pieces) left where
  whole := by
    rw [texts_append, texts_gaps, found.whole, ← scanner, ran.whole]
    simp [texts]
  tokens := by
    obtain ⟨start, stop, -, -⟩ := found.stop
    rw [ran.tokens, tokens, tokensOf_append, tokensOf_gaps, texts_gaps, tokensOf, ← start, ← stop, scanner,
      List.append_assoc]
    rfl
  later := found.later.trans (scanner ▸ ran.later)
  valid := by
    have valid := found.valid
    rw [← scanner, ran.whole] at valid
    exact allValid_append.mpr ⟨allValid_gaps skipped, valid.mono ran.later, ran.valid⟩
  clean := by
    intro none
    obtain ⟨ended, clean, before⟩ := ran.clean none
    obtain ⟨empty, fine⟩ := errors before
    refine ⟨ended, clean_append.mpr ⟨clean_gaps, List.forall_mem_cons.mpr ⟨?_, clean⟩⟩, empty⟩
    intro error failed
    rw [found.yields] at failed
    exact fine error (Option.some.inj failed)
  stopped := ran.stopped

/-- The loop ends, without a panic, and has cut the whole text unless resources
ran out. -/
theorem tokenizeLoop_ran (assumed : ∀ text, Regex.Longest rules text (scan text)) (fuel : Nat) (state : Collected)
    (enough : state.scanner.remainder.length < fuel) (summed : Summed state)
    (fits : state.scanner.stop + utf8Len state.scanner.remainder < 2 ^ 32) :
    ∃ final pieces left, tokenizeLoop scan fuel state = some final ∧ Ran state final pieces left := by
  induction fuel generalizing state with
  | zero => omega
  | succ fuel ih =>
    obtain ⟨gaps, skipped, ⟨rest, ended⟩ | ⟨after, piece, outcome, lexed, found⟩⟩ :=
      lexToken_found assumed (state.scanner.remainder.length + 1) state.scanner (Nat.lt_succ_self _) (by omega)
    · refine ⟨state, gaps.map .gap, [], ?_, ?_⟩
      · rw [tokenizeLoop, ended]
        rfl
      · exact ⟨by rw [texts_gaps, List.append_nil, rest], by rw [tokensOf_gaps, List.append_nil], List.prefix_refl _,
          allValid_gaps skipped, fun none => ⟨rfl, clean_gaps, none⟩, fun more => absurd rfl more⟩
    · obtain ⟨start, stop, total, shorter⟩ := found.stop
      have yields := found.yields
      cases outcome with
      | ok kind =>
        obtain ⟨final, pieces, left, loops, ran⟩ := ih
          { state with scanner := after, tokens := state.tokens ++ [{ kind, start := after.start, stop := after.stop }] }
          (show after.remainder.length < fuel by omega) summed (show after.stop + utf8Len after.remainder < 2 ^ 32 by omega)
        refine ⟨final, _, left, ?_, found.ran skipped rfl ?_ ?_ ran⟩
        · rw [tokenizeLoop, lexed]
          simp only [Option.bind_eq_bind, Option.bind_some, spanOffset_of_lt (show after.start < 2 ^ 32 by omega),
            spanOffset_of_lt (show after.stop < 2 ^ 32 by omega)]
          exact loops
        · rw [tokenOf, yields, stop]
        · exact fun none => ⟨none, fun error failed => by cases failed⟩
      | error error =>
        have within := found.within error rfl
        rw [← found.slice] at within
        obtain ⟨kind, place, last, diagnosed⟩ := diagnose_some within (show after.stop < 2 ^ 32 by omega)
        obtain ⟨errors, summarized, goes, records, some', resource⟩ :=
          recordError_records { state with scanner := after } summed kind place last
        have noToken : tokenOf after.start piece = [] := by rw [tokenOf, yields]
        have step : tokenizeLoop scan (fuel + 1) state =
            if goes then
              tokenizeLoop scan fuel { state with scanner := after, errors, diagnosticsSummarized := summarized }
            else some { state with scanner := after, errors, diagnosticsSummarized := summarized } := by
          rw [tokenizeLoop, lexed]
          simp only [Option.bind_eq_bind, Option.bind_some, diagnosed, records]
          cases goes <;> rfl
        rw [step]
        cases goes with
        | true =>
          obtain ⟨final, pieces, left, loops, ran⟩ := ih
            { state with scanner := after, errors, diagnosticsSummarized := summarized }
            (show after.remainder.length < fuel by omega) (fun _ => some')
            (show after.stop + utf8Len after.remainder < 2 ^ 32 by omega)
          refine ⟨final, _, left, loops, found.ran skipped rfl ?_ (fun none => absurd none some') ran⟩
          rw [noToken, List.append_nil]
        | false =>
          have stops := @Ran.nothing { state with scanner := after, errors, diagnosticsSummarized := summarized }
            (resource rfl)
          refine ⟨_, _, after.remainder, rfl, found.ran skipped rfl ?_ (fun none => absurd none some') stops⟩
          rw [noToken, List.append_nil]

end Loop

theorem tokenOf_mem {offset : Nat} {piece : Piece} {token : Token} (listed : token ∈ tokenOf offset piece) :
    ∃ kind, piece.outcome = some (.ok kind) ∧ token = { kind, start := offset, stop := offset + utf8Len piece.text } := by
  rw [tokenOf] at listed
  split at listed
  next kind known => exact ⟨kind, known, List.mem_singleton.mp listed⟩
  next => cases listed

theorem Piece.Valid.nonempty {strings : List (List Char)} {rest : List Char} {piece : Piece} {kind : TokenKind}
    (valid : piece.Valid strings rest) (yields : piece.outcome = some (.ok kind)) : piece.text ≠ [] := by
  cases piece with
  | gap | unmatched => cases yields
  | lexeme => exact valid.1

/-- The tokens of pieces lie within them, are not empty, and come in order. -/
theorem tokensOf_spans {strings : List (List Char)} {left : List Char} {pieces : List Piece} (offset : Nat)
    (valid : AllValid strings left pieces) :
    (∀ token ∈ tokensOf offset pieces, offset ≤ token.start ∧ token.start < token.stop ∧
      token.stop ≤ offset + utf8Len (texts pieces)) ∧
    (tokensOf offset pieces).Pairwise fun first second => first.stop ≤ second.start := by
  induction pieces generalizing offset with
  | nil =>
    refine ⟨?_, List.Pairwise.nil⟩
    intro token listed
    cases listed
  | cons piece pieces ih =>
    obtain ⟨inside, ordered⟩ := ih (offset + utf8Len piece.text) valid.2
    have length : utf8Len (texts (piece :: pieces)) = utf8Len piece.text + utf8Len (texts pieces) := by
      rw [← utf8Len_append]
      rfl
    rw [tokensOf]
    constructor
    · intro token listed
      rcases List.mem_append.mp listed with first | later
      · obtain ⟨kind, yields, rfl⟩ := tokenOf_mem first
        have positive := utf8Len_pos (valid.1.nonempty yields)
        dsimp only
        omega
      · obtain ⟨low, between, high⟩ := inside token later
        omega
    · refine List.pairwise_append.mpr ⟨?_, ordered, ?_⟩
      · rw [tokenOf]
        split
        · exact List.pairwise_singleton _ _
        · exact List.Pairwise.nil
      · intro token first other later
        obtain ⟨kind, -, rfl⟩ := tokenOf_mem first
        exact (inside other later).1

/-- Tokens that lie in a text after what was read of it, the last one at its end. -/
inductive Placed (source : List Char) : List Char → List Token → Prop
  | done {before after : List Char} {token : Token} (whole : source = before ++ after) (eof : token.kind = .eof) :
      Placed source before [token]
  | token {before gap text after : List Char} {token : Token} {tokens : List Token}
      (whole : source = before ++ gap ++ text ++ after) (other : token.kind ≠ .eof)
      (start : token.start = utf8Len (before ++ gap)) (stop : token.stop = utf8Len (before ++ gap ++ text))
      (rest : Placed source (before ++ gap ++ text) tokens) : Placed source before (token :: tokens)

theorem LexemeOf.not_eof {strings : List (List Char)} {rest text : List Char} {kind : TokenKind} {rule : Rule}
    (made : LexemeOf strings rest text (.ok kind) rule) : kind ≠ .eof := by
  have table : ∀ entry ∈ wordTokens ++ operatorTokens, entry.2 ≠ .eof := by decide
  rintro rfl
  cases rule with
  | skip => exact made.elim
  | token other =>
    obtain ⟨same, spelling, listed, -⟩ := made
    cases same
    exact table _ listed rfl
  | decimal =>
    have shape := made.2
    split at shape <;> cases shape
  | based =>
    obtain ⟨marker, digits, base, radix, -, -, shape⟩ := made
    split at shape
    · cases shape
    · cases parsed : basedOutcome base radix digits 2 0 false with
      | ok | error =>
        rw [parsed] at shape
        cases shape
  | byte => obtain ⟨_, -, -, -, ⟨_, _, shape, -⟩ | ⟨_, shape⟩⟩ := made <;> cases shape
  | float | ident => rcases made with ⟨_, shape, -⟩ | ⟨_, shape⟩ <;> cases shape
  | leadingDot | emptyExponent => cases made
  | string => obtain ⟨_, -, -, -, ⟨_, _, _, ok, -⟩ | ok | ⟨_, ok⟩ | ⟨_, _, ok, -⟩⟩ := made <;> cases ok

theorem placed_tokensOf {source before gap after left : List Char} {strings : List (List Char)} {pieces : List Piece}
    {last : Token} (valid : AllValid strings left pieces) (eof : last.kind = .eof)
    (whole : source = before ++ gap ++ texts pieces ++ after) :
    Placed source before (tokensOf (utf8Len (before ++ gap)) pieces ++ [last]) := by
  induction pieces generalizing before gap with
  | nil =>
    have rest : source = before ++ (gap ++ after) := by simpa [texts] using whole
    exact .done rest eof
  | cons piece pieces ih =>
    have parts : texts (piece :: pieces) = piece.text ++ texts pieces := rfl
    rw [parts] at whole
    rw [tokensOf, tokenOf]
    split
    next kind yields =>
      have other : kind ≠ .eof := by
        have valid := valid.1
        cases piece with
        | gap | unmatched => cases yields
        | lexeme rule text outcome =>
          cases Option.some.inj yields
          exact valid.2.not_eof
      have through : source = before ++ gap ++ piece.text ++ (texts pieces ++ after) := by
        rw [whole]
        simp only [List.append_assoc]
      refine .token through other rfl (utf8Len_append _ _).symm ?_
      have rest := @ih (before ++ gap ++ piece.text) [] valid.2 (by rw [whole]; simp only [List.append_assoc, List.nil_append])
      rwa [List.append_nil, utf8Len_append _ piece.text] at rest
    next =>
      have rest := @ih before (gap ++ piece.text) valid.2 (by rw [whole]; simp only [List.append_assoc])
      rwa [← List.append_assoc, utf8Len_append _ piece.text] at rest

section Fragments

variable {source : List Char}

theorem sliceBytes_eq (before text after : List Char) (whole : source = before ++ text ++ after) :
    sliceBytes source (utf8Len before) (utf8Len (before ++ text)) = some text := by
  have length : utf8Len (before ++ text) - utf8Len before = utf8Len text := by
    rw [utf8Len_append]
    omega
  have ordered : utf8Len before ≤ utf8Len (before ++ text) := by
    rw [utf8Len_append]
    omega
  rw [sliceBytes, whole, List.append_assoc, splitBytes_append]
  simp only [Option.bind_eq_bind, Option.bind_some, if_pos ordered, length, splitBytes_append]
  rfl

variable {all tokens : List Token} {token : Token} {nextToken fuel : Nat} {before after : List Char}

theorem drop_cons (rest : all.drop nextToken = token :: tokens) :
    all[nextToken]? = some token ∧ all.drop (nextToken + 1) = tokens := by
  constructor
  · have first := congrArg (fun list : List Token => list[0]?) rest
    simpa [List.getElem?_drop] using first
  · rw [← List.drop_drop, rest]
    rfl

/-- After the last token the rest of the text is one gap. -/
theorem collect_trailing (whole : source = before ++ after) (small : utf8Len source < 2 ^ 32)
    (known : all[nextToken]? = some token) (eof : token.kind = .eof) :
    ∃ parts, Fragments.collect (fuel + 2) { source, tokens := all, nextToken, cursor := utf8Len before } = some parts ∧
      (parts.map Fragment.text).flatten = after := by
  have length : utf8Len source = utf8Len before + utf8Len after := by rw [whole, utf8Len_append]
  rw [Fragments.collect, Fragments.next]
  simp only [known, if_pos eof, Fragments.trailing]
  by_cases more : after = []
  · subst more
    refine ⟨[], ?_, rfl⟩
    rw [utf8Len_nil] at length
    rw [if_neg (by omega)]
    rfl
  · have positive := utf8Len_pos more
    have text : sliceBytes source (utf8Len before) (utf8Len source) = some after := by
      have sliced := sliceBytes_eq before after [] (whole.trans (List.append_nil _).symm)
      rwa [← whole] at sliced
    refine ⟨[.gap (utf8Len before) (utf8Len source) after], ?_, by simp [Fragment.text]⟩
    rw [if_pos (by omega)]
    simp only [Option.bind_eq_bind, Option.bind_some, spanOffset_of_lt (show utf8Len before < 2 ^ 32 by omega),
      spanOffset_of_lt small, text]
    show (Fragments.collect (fuel + 1) _).bind _ = _
    rw [Fragments.collect, Fragments.next, List.getElem?_eq_none (Nat.le_refl _)]
    simp only [Fragments.trailing, Nat.lt_irrefl, if_false]
    rfl

theorem collect_token (known : all[nextToken]? = some token) (other : token.kind ≠ .eof) {text : List Char}
    (sliced : sliceBytes source token.start token.stop = some text) :
    Fragments.collect (fuel + 1) { source, tokens := all, nextToken, cursor := token.start } =
      (Fragments.collect fuel { source, tokens := all, nextToken := nextToken + 1, cursor := token.stop }).map
        (.token token.kind token.start token.stop text :: ·) := by
  rw [Fragments.collect, Fragments.next]
  simp only [known, if_neg other, Nat.lt_irrefl, if_false, sliced, Option.bind_eq_bind, Option.bind_some,
    Option.pure_def]
  cases Fragments.collect fuel { source, tokens := all, nextToken := nextToken + 1, cursor := token.stop } <;> rfl

theorem collect_gap (known : all[nextToken]? = some token) (other : token.kind ≠ .eof) {cursor : Nat} {gap : List Char}
    (sliced : sliceBytes source cursor token.start = some gap) (ahead : cursor < token.start)
    (small : token.start < 2 ^ 32) :
    Fragments.collect (fuel + 1) { source, tokens := all, nextToken, cursor } =
      (Fragments.collect fuel { source, tokens := all, nextToken, cursor := token.start }).map
        (.gap cursor token.start gap :: ·) := by
  rw [Fragments.collect, Fragments.next]
  simp only [known, if_neg other, if_pos ahead, sliced, Option.bind_eq_bind, Option.bind_some,
    spanOffset_of_lt (show cursor < 2 ^ 32 by omega), spanOffset_of_lt small, Option.pure_def]
  cases Fragments.collect fuel { source, tokens := all, nextToken, cursor := token.start } <;> rfl

/-- The fragments are the rest of the text, cut at its tokens. -/
theorem collect_placed (placed : Placed source before tokens) (small : utf8Len source < 2 ^ 32)
    (rest : all.drop nextToken = tokens) (enough : 2 * tokens.length ≤ fuel) : ∃ parts after,
    Fragments.collect fuel { source, tokens := all, nextToken, cursor := utf8Len before } = some parts ∧
      source = before ++ after ∧ (parts.map Fragment.text).flatten = after := by
  induction placed generalizing nextToken fuel with
  | @done before after token whole eof =>
    obtain ⟨fuel, rfl⟩ : ∃ less, fuel = less + 2 := ⟨fuel - 2, by simp only [List.length_singleton] at enough; omega⟩
    obtain ⟨parts, collected, joined⟩ := @collect_trailing source all token nextToken fuel before after whole small
      (drop_cons rest).1 eof
    exact ⟨parts, after, collected, whole, joined⟩
  | @token before gap text after token tokens whole other start stop _ ih =>
    obtain ⟨known, later⟩ := drop_cons rest
    rw [List.length_cons] at enough
    obtain ⟨fuel, rfl⟩ : ∃ less, fuel = less + 2 := ⟨fuel - 2, by omega⟩
    have sliced : sliceBytes source token.start token.stop = some text := by
      rw [start, stop]
      exact sliceBytes_eq _ text after whole
    by_cases adjacent : gap = []
    · subst adjacent
      obtain ⟨parts, after', collected, shape, joined⟩ := @ih (nextToken + 1) (fuel + 1) later (by omega)
      refine ⟨.token token.kind token.start token.stop text :: parts, text ++ after', ?_, ?_, ?_⟩
      · rw [List.append_nil] at start
        rw [← start, collect_token known other sliced, stop, collected]
        rfl
      · rw [shape]
        simp only [List.append_assoc, List.nil_append]
      · rw [List.map_cons, List.flatten_cons, joined]
        rfl
    · obtain ⟨parts, after', collected, shape, joined⟩ := @ih (nextToken + 1) fuel later (by omega)
      have positive := utf8Len_pos adjacent
      have total : token.start = utf8Len before + utf8Len gap := by rw [start, utf8Len_append]
      have inside : token.start < 2 ^ 32 := by
        rw [whole, utf8Len_append, utf8Len_append, ← start] at small
        omega
      have gapSliced : sliceBytes source (utf8Len before) token.start = some gap := by
        rw [start]
        exact sliceBytes_eq before gap (text ++ after) (by rw [whole, List.append_assoc])
      refine ⟨.gap (utf8Len before) token.start gap :: .token token.kind token.start token.stop text :: parts,
        gap ++ (text ++ after'), ?_, ?_, ?_⟩
      · rw [collect_gap known other gapSliced (by omega) inside, collect_token known other sliced, stop, collected]
        rfl
      · rw [shape]
        simp only [List.append_assoc]
      · rw [List.map_cons, List.flatten_cons, List.map_cons, List.flatten_cons, joined]
        rfl

end Fragments

/-- A well-formed integer literal: its base, and the text of its digits. -/
def IntegerLiteral (text : List Char) (radix : Nat) (digits : List Char) : Rule → Prop
  | .decimal => radix = 10 ∧ digits = text ∧ ∀ c ∈ text, isDigitOrSeparator c
  | .based => ∃ marker base, text = '0' :: marker :: digits ∧ baseOf marker = some (base, radix) ∧
      (∀ c ∈ digits, isNumeral radix c) ∧ digitsOf radix digits ≠ []
  | _ => False

section Integers

variable {strings : List (List Char)} {rest text digits : List Char} {outcome : Except LexError TokenKind} {rule : Rule}
  {radix value : Nat}

theorem baseOf_lower {marker : Char} {base : String} (known : baseOf marker = some (base, radix)) :
    marker.toLower = marker ∧ marker.isUpper = false := by
  unfold baseOf at known
  split at known
  all_goals first | exact ⟨rfl, rfl⟩ | cases known

theorem integer_exact (made : LexemeOf strings rest text outcome rule) (literal : IntegerLiteral text radix digits rule) :
    outcome = if literalValue radix digits ≤ u64Max then .ok (.int (literalValue radix digits))
      else .error .invalidInteger := by
  cases rule with
  | decimal =>
    obtain ⟨rfl, rfl, -⟩ := literal
    exact made.2
  | based =>
    obtain ⟨marker, base, shape, known, numerals, some'⟩ := literal
    obtain ⟨marker', digits', base', radix', shape', known', yields⟩ := made
    rw [shape] at shape'
    cases shape'
    obtain ⟨lower, notUpper⟩ := baseOf_lower known
    rw [lower, known] at known'
    cases known'
    rw [yields, notUpper, if_neg Bool.false_ne_true, basedOutcome_numerals numerals]
    have filled : (digitsOf radix digits).isEmpty = false := by simpa using some'
    by_cases fits : literalValue radix digits ≤ u64Max
    · rw [if_neg (by omega), filled, if_pos fits]
      rfl
    · rw [if_pos (by omega), if_neg fits]
      rfl
  | skip | token | byte | float | leadingDot | emptyExponent | string | ident => exact literal.elim

theorem baseOf_toLower {marker : Char} {base : String} (known : baseOf marker.toLower = some (base, radix))
    (lower : marker.isUpper = false) : baseOf marker = some (base, radix) := by
  have same : marker.toLower = marker := by
    rw [Char.toLower, dif_neg]
    simpa [Char.isUpper] using lower
  rwa [same] at known

theorem integer_of_ok (made : LexemeOf strings rest text (.ok (.int value)) rule)
    (rules : rule = .decimal ∨ rule = .based) : ∃ radix digits, IntegerLiteral text radix digits rule ∧
      value = literalValue radix digits := by
  rcases rules with rfl | rfl
  · obtain ⟨numerals, yields⟩ := made
    split at yields
    · cases yields
      exact ⟨10, text, ⟨rfl, rfl, numerals⟩, rfl⟩
    · cases yields
  · obtain ⟨marker, digits, base, radix, shape, known, yields⟩ := made
    split at yields
    · cases yields
    next lower =>
      cases parsed : basedOutcome base radix digits 2 0 false with
      | error error =>
        rw [parsed] at yields
        cases yields
      | ok found =>
        rw [parsed] at yields
        cases yields
        obtain ⟨numerals, same, bounded⟩ := basedOutcome_ok parsed
        refine ⟨radix, digits, ⟨marker, base, shape, baseOf_toLower known (by simpa using lower), numerals, ?_⟩, same⟩
        intro none
        rw [basedOutcome_numerals numerals, none] at parsed
        split at parsed <;> cases parsed

/-- Digits without a place, up to the first character that is none of the base. -/
def Overflows (text : List Char) : Rule → Prop
  | .decimal => u64Max < literalValue 10 text
  | .based => ∃ marker digits base radix, text = '0' :: marker :: digits ∧ baseOf marker = some (base, radix) ∧
      u64Max < literalValue radix (digits.takeWhile (isNumeral radix))
  | _ => False

theorem integer_overflow (made : LexemeOf strings rest text (.error .invalidInteger) rule) : Overflows text rule := by
  cases rule with
  | skip => exact made.elim
  | token => cases made.1
  | decimal =>
    have yields := made.2
    split at yields
    · cases yields
    next beyond => exact Nat.lt_of_not_le beyond
  | based =>
    obtain ⟨marker, digits, base, radix, shape, known, yields⟩ := made
    split at yields
    · cases yields
    next lower =>
      cases parsed : basedOutcome base radix digits 2 0 false with
      | ok found =>
        rw [parsed] at yields
        cases yields
      | error error =>
        rw [parsed] at yields
        cases yields
        exact ⟨marker, digits, base, radix, shape, baseOf_toLower known (by simpa using lower), basedOutcome_overflow parsed⟩
  | byte => obtain ⟨_, -, -, -, ⟨_, _, shape, -⟩ | ⟨_, shape⟩⟩ := made <;> cases shape
  | float | ident => rcases made with ⟨_, shape, -⟩ | ⟨_, shape⟩ <;> cases shape
  | leadingDot | emptyExponent => cases made
  | string => obtain ⟨_, -, -, -, ⟨_, _, _, ok, -⟩ | ok | ⟨_, ok⟩ | ⟨_, _, ok, -⟩⟩ := made <;> cases ok

end Integers

/-- A leading byte-order mark, if the file has one. -/
def leading (source : List Char) : List Char := if source.head? = some bom then [bom] else []

def eofToken (source : List Char) : Token := { kind := .eof, start := utf8Len source, stop := utf8Len source }

/-- A literal that is read on from its opening quote. -/
def Quoted (rule : Rule) (opening : List Char) (quote : Char) : Prop :=
  (rule = .string ∧ opening = ['"'] ∧ quote = '"') ∨ (rule = .byte ∧ opening = ['b', '\''] ∧ quote = '\'')

/-- A file as its run has cut it: into pieces that are what their rules make of
them, with the tokens where they are. -/
structure Cut (source : List Char) (tokens : List Token) (rodeo : Rodeo) (errors : List CompileError)
    (pieces : List Piece) (left : List Char) : Prop where
  whole : source = leading source ++ texts pieces ++ left
  valid : AllValid rodeo.strings left pieces
  placed : tokens = tokensOf (utf8Len (leading source)) pieces ++ [eofToken source]
  stopped : left ≠ [] → ∃ error ∈ errors, error.kind.isResource
  clean : errors = [] → left = [] ∧ Clean pieces
  spans : ∀ token ∈ tokensOf (utf8Len (leading source)) pieces,
    utf8Len (leading source) ≤ token.start ∧ token.start < token.stop ∧ token.stop ≤ utf8Len source
  ordered : (tokensOf (utf8Len (leading source)) pieces).Pairwise fun first second => first.stop ≤ second.start
  integers : ∀ rule text outcome radix digits, .lexeme rule text outcome ∈ pieces →
    IntegerLiteral text radix digits rule → outcome =
      if literalValue radix digits ≤ u64Max then .ok (.int (literalValue radix digits)) else .error .invalidInteger
  integerTokens : ∀ rule text value, .lexeme rule text (.ok (.int value)) ∈ pieces → rule = .decimal ∨ rule = .based →
    ∃ radix digits, IntegerLiteral text radix digits rule ∧ value = literalValue radix digits
  overflow : ∀ rule text, .lexeme rule text (.error .invalidInteger) ∈ pieces → Overflows text rule
  strings : ∀ text spur, .lexeme .string text (.ok (.string spur)) ∈ pieces → ∃ content value,
    text = '"' :: content ++ ['"'] ∧ unescape content = some value ∧ rodeo.strings[spur]? = some value
  malformed : ∀ before rule text error after, pieces = before ++ .lexeme rule text (.error error) :: after →
    ∀ opening quote, Quoted rule opening quote → ∃ taken, text = opening ++ taken ∧ OneLine text ∧
      ∀ closed, closing quote (taken ++ (texts after ++ left)) = some closed → taken = closed
  lossless : ∃ parts, fragments source tokens = some parts ∧ (parts.map Fragment.text).flatten = source

theorem LexemeOf.quoted {strings : List (List Char)} {rest text opening : List Char} {error : LexError} {rule : Rule}
    {quote : Char} (made : LexemeOf strings rest text (.error error) rule) (quoted : Quoted rule opening quote) :
    ∃ taken, text = opening ++ taken ∧ OneLine text ∧
      ∀ closed, closing quote (taken ++ rest) = some closed → taken = closed := by
  rcases quoted with ⟨rfl, rfl, rfl⟩ | ⟨rfl, rfl, rfl⟩
  · obtain ⟨taken, rfl, oneLine, closed, -⟩ := made
    exact ⟨taken, rfl, oneLine_cons.mpr ⟨rfl, oneLine⟩, closed⟩
  · obtain ⟨taken, rfl, oneLine, closed, -⟩ := made
    exact ⟨taken, rfl, oneLine_cons.mpr ⟨rfl, oneLine_cons.mpr ⟨rfl, oneLine⟩⟩, closed⟩

theorem AllValid.mem {strings : List (List Char)} {left : List Char} {pieces : List Piece} {piece : Piece}
    (valid : AllValid strings left pieces) (listed : piece ∈ pieces) : ∃ rest, piece.Valid strings rest := by
  induction pieces with
  | nil => cases listed
  | cons first pieces ih =>
    rcases List.mem_cons.mp listed with rfl | later
    · exact ⟨_, valid.1⟩
    · exact ih valid.2 later

theorem cut_of_ran {source rest : List Char} {final : Collected} {pieces : List Piece}
    {left : List Char} {scanner : Scanner} (small : utf8Len source < 2 ^ 32) (whole : source = leading source ++ rest)
    (stop : scanner.stop = utf8Len (leading source)) (remainder : scanner.remainder = rest)
    (ran : Ran { scanner, tokens := [], errors := [], diagnosticsSummarized := false } final pieces left) :
    Cut source (final.tokens ++ [eofToken source]) final.scanner.extras final.errors pieces left := by
  have parts : source = leading source ++ texts pieces ++ left := by
    have read : scanner.remainder = texts pieces ++ left := ran.whole
    rw [List.append_assoc, ← read, remainder, ← whole]
  have tokens : final.tokens = tokensOf (utf8Len (leading source)) pieces := by
    rw [ran.tokens, ← stop]
    rfl
  obtain ⟨spans, ordered⟩ := tokensOf_spans (utf8Len (leading source)) ran.valid
  have length := congrArg utf8Len parts
  rw [utf8Len_append, utf8Len_append] at length
  refine ⟨parts, ran.valid, by rw [tokens], ran.stopped, ?_, ?_, ordered, ?_, ?_, ?_, ?_, ?_, ?_⟩
  · intro none
    obtain ⟨ended, clean, -⟩ := ran.clean none
    exact ⟨ended, clean⟩
  · intro token listed
    obtain ⟨low, between, high⟩ := spans token listed
    exact ⟨low, between, by omega⟩
  · intro rule text outcome radix digits listed literal
    obtain ⟨rest, valid⟩ := ran.valid.mem listed
    exact integer_exact valid.2 literal
  · intro rule text value listed integer
    obtain ⟨rest, valid⟩ := ran.valid.mem listed
    exact integer_of_ok valid.2 integer
  · intro rule text listed
    obtain ⟨rest, valid⟩ := ran.valid.mem listed
    exact integer_overflow valid.2
  · intro text spur listed
    obtain ⟨rest, -, taken, shape, -, -, ⟨_, content, value, same, ends, escapes, resolves⟩ | same | ⟨_, same⟩ | ⟨_, _, same, -⟩⟩ :=
      ran.valid.mem listed
    · cases same
      exact ⟨content, value, by rw [shape, ends]; rfl, escapes, resolves⟩
    all_goals cases same
  · intro before rule text error after shape opening quote quoted
    have valid := ran.valid
    rw [shape] at valid
    exact (allValid_append.mp valid).2.1.2.quoted quoted
  · have placed := @placed_tokensOf source [] (leading source) left left final.scanner.extras.strings pieces
      (eofToken source) ran.valid rfl (by rw [List.nil_append]; exact parts)
    rw [List.nil_append, ← tokens] at placed
    obtain ⟨fragments, after, collected, shape, joined⟩ := @collect_placed source (final.tokens ++ [eofToken source])
      (final.tokens ++ [eofToken source]) 0 (2 * (final.tokens ++ [eofToken source]).length + 2) [] placed small rfl
      (by omega)
    exact ⟨fragments, collected, by rw [joined, shape, List.nil_append]⟩

/-- The lexer ends on every file whose offsets are of 32 bits, without a panic,
and has cut it. -/
theorem tokenize_cuts {scan : List Char → Option (Rule × Nat)} (assumed : ∀ text, Regex.Longest rules text (scan text))
    (source : List Char) (interner : Rodeo) (small : utf8Len source < 2 ^ 32) : ∃ tokens rodeo errors pieces left,
      tokenizeRecoveredPreservingInterner scan source interner = some (tokens, rodeo, errors) ∧
      Later interner rodeo ∧ Cut source tokens rodeo errors pieces left := by
  obtain ⟨scanner, rest, opened, whole, stop, remainder, extras⟩ : ∃ scanner rest,
      (∀ next : Scanner → Option (List Token × Rodeo × List CompileError),
        (if source.head? = some bom then
          (({ passed := [], slice := [], remainder := source, extras := interner } : Scanner).bump bom.utf8Size).bind next
        else next { passed := [], slice := [], remainder := source, extras := interner }) = next scanner) ∧
      source = leading source ++ rest ∧ scanner.stop = utf8Len (leading source) ∧ scanner.remainder = rest ∧
      scanner.extras = interner := by
    rw [leading]
    split
    next marked =>
      obtain ⟨rest, rfl⟩ : ∃ rest, source = bom :: rest := by
        cases source with
        | nil => cases marked
        | cons c rest => exact ⟨rest, by rw [Option.some.inj marked]⟩
      have bumped := @bump_eq { passed := [], slice := [], remainder := bom :: rest, extras := interner } [bom] rest rfl
      have length : bom.utf8Size = utf8Len [bom] := rfl
      exact ⟨_, rest, fun next => by rw [length, bumped, Option.bind_some], rfl, rfl, rfl, rfl⟩
    · exact ⟨_, source, fun next => rfl, rfl, rfl, rfl, rfl⟩
  have length := congrArg utf8Len whole
  rw [utf8Len_append] at length
  have shorter : rest.length ≤ source.length := by
    rw [whole, List.length_append]
    omega
  obtain ⟨final, pieces, left, loops, ran⟩ := tokenizeLoop_ran assumed (source.length + 1)
    { scanner, tokens := [], errors := [], diagnosticsSummarized := false }
    (by rw [remainder]; omega) (fun summarized => by cases summarized) (by rw [stop, remainder]; omega)
  refine ⟨_, _, _, pieces, left, ?_, ?_, cut_of_ran small whole stop remainder ran⟩
  · rw [tokenizeRecoveredPreservingInterner, spanOffset_of_lt small]
    refine (opened _).trans ?_
    dsimp only
    rw [loops]
    rfl
  · exact extras ▸ ran.later

/-- The scan for the longest match is one. -/
theorem tokenize_cuts_longest : ∃ tokens rodeo errors pieces left,
    tokenizeRecoveredPreservingInterner (Regex.longest rules) ['x', '=', '1'] { strings := [], allocates := fun _ => true } =
      some (tokens, rodeo, errors) ∧ Later { strings := [], allocates := fun _ => true } rodeo ∧
      Cut ['x', '=', '1'] tokens rodeo errors pieces left :=
  tokenize_cuts (Regex.longest_spec rules) ['x', '=', '1'] { strings := [], allocates := fun _ => true } (by decide)

/-- The token at the end of a file is empty; here it is the only one. -/
theorem tokenize_empty : ∃ tokens rodeo errors, tokenizeRecoveredPreservingInterner (Regex.longest rules) []
    { strings := [], allocates := fun _ => true } = some (tokens, rodeo, errors) ∧
      ¬ ∀ token ∈ tokens, token.start < token.stop :=
  ⟨_, _, _, rfl, by decide⟩

end Rue.Proofs.Lexing
