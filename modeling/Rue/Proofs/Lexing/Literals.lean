import Mathlib
import Rue.Lexing.Lexer

/-! The literals: the value of an integer's digits, and where a string and a byte
literal end, whether they are well formed or not. -/

namespace Rue.Proofs.Lexing
open Rue.Lib Rue.Lexing

@[simp] theorem utf8Len_nil : utf8Len [] = 0 := rfl

@[simp] theorem utf8Len_cons (c : Char) (text : List Char) : utf8Len (c :: text) = c.utf8Size + utf8Len text := rfl

@[simp] theorem utf8Len_append (first second : List Char) :
    utf8Len (first ++ second) = utf8Len first + utf8Len second := by
  simp [utf8Len]

theorem utf8Len_pos {text : List Char} (some' : text ≠ []) : 0 < utf8Len text := by
  cases text with
  | nil => exact absurd rfl some'
  | cons c text =>
    have positive := c.utf8Size_pos
    rw [utf8Len_cons]
    omega

theorem splitBytes_append (before after : List Char) :
    splitBytes (before ++ after) (utf8Len before) = some (before, after) := by
  induction before with
  | nil => cases after <;> rfl
  | cons c before ih =>
    obtain ⟨size, sized⟩ : ∃ size, c.utf8Size = size + 1 := ⟨c.utf8Size - 1, by have := c.utf8Size_pos; omega⟩
    have total : utf8Len (c :: before) = size + utf8Len before + 1 := by
      rw [utf8Len_cons, sized]
      omega
    have left : size + utf8Len before + 1 - c.utf8Size = utf8Len before := by omega
    rw [total, List.cons_append, splitBytes, if_pos (by omega), left, ih]
    rfl

theorem spanOffset_of_lt {offset : Nat} (small : offset < 2 ^ 32) : spanOffset offset = some offset := if_pos small

theorem addOffsets_of_lt {first second : Nat} (small : first + second < 2 ^ 32) :
    addOffsets first second = some (first + second) := if_pos small

theorem size_of_ascii {c : Char} (ascii : c.toNat < 128) : c.utf8Size = 1 := by
  rw [Char.utf8Size, if_pos]
  show c.toNat ≤ 127
  omega

theorem bump_eq {scanner : Scanner} {taken left : List Char} (whole : scanner.remainder = taken ++ left) :
    scanner.bump (utf8Len taken) =
      some { scanner with slice := scanner.slice ++ taken, remainder := left } := by
  rw [Scanner.bump, whole, splitBytes_append]
  rfl

/-- The text through the first quote that no backslash escapes, if there is one
before the line ends. -/
def closing (quote : Char) : List Char → Option (List Char)
  | [] => none
  | c :: rest =>
    if c = quote then some [c]
    else if isLineTerminator c then none
    else if c = '\\' then
      match rest with
      | [] => none
      | escaped :: rest => if isLineTerminator escaped then none else (closing quote rest).map (c :: escaped :: ·)
    else (closing quote rest).map (c :: ·)

/-- A string literal's content with each escape replaced. -/
def unescape : List Char → Option (List Char)
  | [] => some []
  | c :: rest =>
    if c = '\\' then
      match rest with
      | [] => none
      | escape :: rest => do
        let value ← stringEscape escape
        let text ← unescape rest
        return value :: text
    else if c = '"' || isLineTerminator c then none
    else (unescape rest).map (c :: ·)

def OneLine (text : List Char) : Prop := ∀ c ∈ text, isLineTerminator c = false

/-- The error kept for later lies within what was consumed. -/
def Kept (consumed : Nat) (pending : Option LexError) : Prop :=
  ∀ error, pending = some error →
    ∃ offset escape, error = .invalidStringEscape offset escape ∧ offset + escape.utf8Size ≤ consumed

/-- The scan of a string literal stops after its closing quote, or at the end of
the line when there is none; its result is the content with the escapes replaced. -/
structure Scanned (rest result taken left : List Char) (consumed : Nat) (pending : Option LexError)
    (scan : StringScan) : Prop where
  whole : rest = taken ++ left
  consumed : scan.consumed = consumed + utf8Len taken
  oneLine : OneLine taken
  closed : closing '"' rest = if scan.foundClose then some taken else none
  kept : Kept scan.consumed scan.pendingError
  clean : scan.pendingError = none → pending = none
  value : scan.foundClose → scan.pendingError = none →
    ∃ content text, taken = content ++ ['"'] ∧ unescape content = some text ∧ scan.result = result ++ text

section Closing

variable {quote c escaped : Char} {rest taken : List Char}

theorem closing_plain (other : c ≠ quote) (inLine : isLineTerminator c = false) (plain : c ≠ '\\') :
    closing quote (c :: rest) = (closing quote rest).map (c :: ·) := by
  cases rest <;> simp only [closing, if_neg other, inLine, Bool.false_eq_true, if_false, if_neg plain]

theorem closing_escape (other : '\\' ≠ quote) (inLine : isLineTerminator escaped = false) :
    closing quote ('\\' :: escaped :: rest) = (closing quote rest).map ('\\' :: escaped :: ·) := by
  have slash : isLineTerminator '\\' = false := rfl
  simp only [closing, if_neg other, slash, inLine, Bool.false_eq_true, if_false, if_true]

theorem closing_quote : closing quote (quote :: rest) = some [quote] := by
  cases rest <;> simp only [closing, if_true]

theorem closing_lineEnd (other : c ≠ quote) (ends : isLineTerminator c) : closing quote (c :: rest) = none := by
  cases rest <;> simp only [closing, if_neg other, ends, if_true]

theorem closing_escapedLineEnd (other : '\\' ≠ quote) (ends : isLineTerminator escaped) :
    closing quote ('\\' :: escaped :: rest) = none := by
  have slash : isLineTerminator '\\' = false := rfl
  simp only [closing, if_neg other, slash, ends, Bool.false_eq_true, if_false, if_true]

theorem unescape_plain (plain : c ≠ '\\') (other : c ≠ '"') (inLine : isLineTerminator c = false) :
    unescape (c :: rest) = (unescape rest).map (c :: ·) := by
  cases rest <;> simp [unescape, plain, other, inLine]

theorem stringEscape_inLine {value : Char} (known : stringEscape escaped = some value) :
    isLineTerminator escaped = false := by
  unfold stringEscape at known
  split at known
  all_goals first | rfl | cases known

theorem stringEscape_size {value : Char} (known : stringEscape escaped = some value) : escaped.utf8Size = 1 := by
  unfold stringEscape at known
  split at known
  all_goals first | rfl | cases known

theorem unescape_escape : unescape ('\\' :: escaped :: rest) =
    (stringEscape escaped).bind fun value => (unescape rest).bind fun text => some (value :: text) := by
  simp only [unescape, if_true]
  rfl

theorem oneLine_cons : OneLine (c :: rest) ↔ isLineTerminator c = false ∧ OneLine rest := List.forall_mem_cons

end Closing

theorem Kept.mono {consumed more : Nat} {pending : Option LexError} (kept : Kept consumed pending)
    (grows : consumed ≤ more) : Kept more pending := by
  intro error known
  obtain ⟨offset, escape, shape, within⟩ := kept error known
  exact ⟨offset, escape, shape, by omega⟩

section Scan

variable {rest result taken left : List Char} {consumed : Nat} {pending : Option LexError}

theorem oneLine_nil : OneLine [] := fun _ listed => by cases listed

theorem scanned_open (whole : rest = taken ++ left) (oneLine : OneLine taken) (none : closing '"' rest = none)
    (kept : Kept consumed pending) : Scanned rest result taken left consumed pending
      { consumed := consumed + utf8Len taken, result, pendingError := pending, foundClose := false } where
  whole := whole
  consumed := rfl
  oneLine := oneLine
  closed := none
  kept := kept.mono (Nat.le_add_right _ _)
  clean := id
  value := by
    intro found
    cases found

theorem scanString_scanned (rest : List Char) (consumed : Nat) (result : List Char) (pending : Option LexError)
    (fits : consumed + utf8Len rest + 1 < 2 ^ 32) (kept : Kept consumed pending) :
    ∃ scan taken left, scanString rest consumed result pending = some scan ∧
      Scanned rest result taken left consumed pending scan := by
  have slash : Char.utf8Size '\\' = 1 := rfl
  have oneSlash : OneLine ['\\'] := oneLine_cons.mpr ⟨rfl, oneLine_nil⟩
  induction rest using closing.induct '"' generalizing consumed result pending with
  | case1 => exact ⟨_, [], [], rfl, scanned_open rfl oneLine_nil rfl kept⟩
  | case2 rest =>
    refine ⟨{ consumed := consumed + 1, result, pendingError := pending, foundClose := true }, ['"'], rest, ?_, rfl, rfl,
      oneLine_cons.mpr ⟨rfl, oneLine_nil⟩, closing_quote, kept.mono (Nat.le_succ _), id, ?_⟩
    · rw [scanString, if_pos rfl]
    · intro _ _
      exact ⟨[], [], rfl, rfl, (List.append_nil _).symm⟩
  | case3 c rest other ends =>
    have plain : c ≠ '\\' := by
      rintro rfl
      cases ends
    refine ⟨_, [], c :: rest, ?_, scanned_open rfl oneLine_nil (closing_lineEnd other ends) kept⟩
    rw [scanString, if_neg other, if_neg plain, if_pos ends]
    rfl
  | case4 other inLine =>
    rw [utf8Len_cons, slash] at fits
    refine ⟨_, ['\\'], [], ?_, scanned_open rfl oneSlash rfl kept⟩
    simp only [scanString, if_neg other, if_true, spanOffset_of_lt (show consumed < 2 ^ 32 by omega),
      Option.bind_eq_bind, Option.bind_some, addOffsets_of_lt (show consumed + 1 < 2 ^ 32 by omega)]
    rfl
  | case5 escaped rest ends other inLine =>
    rw [utf8Len_cons, slash] at fits
    have unknown : stringEscape escaped = none := by
      cases known : stringEscape escaped with
      | none => rfl
      | some value =>
        rw [stringEscape_inLine known] at ends
        cases ends
    refine ⟨_, ['\\'], escaped :: rest, ?_, scanned_open rfl oneSlash (closing_escapedLineEnd other ends) kept⟩
    simp only [scanString, if_neg other, if_true, spanOffset_of_lt (show consumed < 2 ^ 32 by omega),
      Option.bind_eq_bind, Option.bind_some, addOffsets_of_lt (show consumed + 1 < 2 ^ 32 by omega), unknown, ends]
    rfl
  | case6 escaped rest inLine other _ ih =>
    have inLine : isLineTerminator escaped = false := by simpa using inLine
    rw [utf8Len_cons, utf8Len_cons, slash] at fits
    have step : scanString ('\\' :: escaped :: rest) consumed result pending =
        (stringEscape escaped).elim
          (scanString rest (consumed + 1 + escaped.utf8Size) result
            (pending.or (some (.invalidStringEscape (consumed + 1) escaped))))
          fun byte => scanString rest (consumed + 1 + 1) (result ++ [byte]) pending := by
      simp only [scanString, if_neg other, if_true, spanOffset_of_lt (show consumed < 2 ^ 32 by omega),
        Option.bind_eq_bind, Option.bind_some, addOffsets_of_lt (show consumed + 1 < 2 ^ 32 by omega), inLine, slash,
        Bool.false_eq_true, if_false]
      all_goals cases stringEscape escaped <;> rfl
    rw [step]
    cases known : stringEscape escaped with
    | some byte =>
      have small : escaped.utf8Size = 1 := stringEscape_size known
      obtain ⟨scan, taken, left, scans, scanned⟩ := ih (consumed + 1 + 1) (result ++ [byte]) pending (by omega)
        (kept.mono (by omega))
      refine ⟨scan, '\\' :: escaped :: taken, left, scans, by rw [scanned.whole]; rfl, ?_,
        oneLine_cons.mpr ⟨rfl, oneLine_cons.mpr ⟨inLine, scanned.oneLine⟩⟩, ?_, scanned.kept, scanned.clean, ?_⟩
      · rw [scanned.consumed, utf8Len_cons, utf8Len_cons, slash, small]
        omega
      · rw [closing_escape other inLine, scanned.closed]
        split <;> rfl
      · intro found none
        obtain ⟨content, text, ends, escapes, reads⟩ := scanned.value found none
        refine ⟨'\\' :: escaped :: content, byte :: text, by rw [ends]; rfl, ?_, by rw [reads, List.append_assoc]; rfl⟩
        rw [unescape_escape, known, escapes]
        rfl
    | none =>
      have recorded : Kept (consumed + 1 + escaped.utf8Size)
          (pending.or (some (.invalidStringEscape (consumed + 1) escaped))) := by
        intro error found
        cases pending with
        | some first => exact kept.mono (by omega) error found
        | none =>
          obtain rfl := Option.some.inj found
          exact ⟨_, _, rfl, Nat.le_refl _⟩
      obtain ⟨scan, taken, left, scans, scanned⟩ := ih (consumed + 1 + escaped.utf8Size) result
        (pending.or (some (.invalidStringEscape (consumed + 1) escaped))) (by omega) recorded
      refine ⟨scan, '\\' :: escaped :: taken, left, scans, by rw [scanned.whole]; rfl, ?_,
        oneLine_cons.mpr ⟨rfl, oneLine_cons.mpr ⟨inLine, scanned.oneLine⟩⟩, ?_, scanned.kept, ?_, ?_⟩
      · rw [scanned.consumed, utf8Len_cons, utf8Len_cons, slash]
        omega
      · rw [closing_escape other inLine, scanned.closed]
        split <;> rfl
      · intro clean
        have nothing := scanned.clean clean
        cases pending <;> cases nothing
      · intro _ clean
        have nothing := scanned.clean clean
        cases pending <;> cases nothing
  | case7 c rest other inLine plain ih =>
    have inLine : isLineTerminator c = false := by simpa using inLine
    rw [utf8Len_cons] at fits
    obtain ⟨scan, taken, left, scans, scanned⟩ := ih (consumed + c.utf8Size) (result ++ [c]) pending (by omega)
      (kept.mono (Nat.le_add_right _ _))
    refine ⟨scan, c :: taken, left, ?_, ?_⟩
    · rw [scanString, if_neg other, if_neg plain, inLine, if_neg Bool.false_ne_true, scans]
    · refine ⟨by rw [scanned.whole]; rfl, ?_, oneLine_cons.mpr ⟨inLine, scanned.oneLine⟩, ?_, scanned.kept, scanned.clean, ?_⟩
      · rw [scanned.consumed, utf8Len_cons]
        omega
      · rw [closing_plain other inLine plain, scanned.closed]
        split <;> rfl
      · intro found none
        obtain ⟨content, text, ends, escapes, reads⟩ := scanned.value found none
        refine ⟨c :: content, c :: text, by rw [ends]; rfl, ?_, by rw [reads, List.append_assoc]; rfl⟩
        rw [unescape_plain plain other inLine, escapes]
        rfl

end Scan

/-- The content of a byte literal, with its value. -/
def ByteContent (content : List Char) (value : Nat) : Prop :=
  (∃ c, content = [c] ∧ c.toNat = value ∧ value < 128) ∨ ∃ escape, content = ['\\', escape] ∧ byteEscape escape = some value

/-- What a byte literal's scan has read: never past its line, through its closing
quote if there is one on it. -/
structure ByteRead (scanner : Scanner) (taken left : List Char) (outcome : Except LexError TokenKind) : Prop where
  whole : scanner.remainder = taken ++ left
  oneLine : OneLine taken
  closed : ∀ text, closing '\'' scanner.remainder = some text → taken = text
  outcome : (∃ value content, outcome = .ok (.int value) ∧ taken = content ++ ['\''] ∧ ByteContent content value) ∨
    ∃ reason, outcome = .error (.malformedByteLiteral reason)

/-- Content that is no closing quote and does not hide one. -/
structure Inside (content : List Char) : Prop where
  oneLine : OneLine content
  closing : ∀ tail, closing '\'' (content ++ tail) = (closing '\'' tail).map (content ++ ·)

section Bytes

variable {scanner : Scanner} {content tail : List Char} {value : Nat}

theorem resyncStop_stops (tail : List Char) (offset : Nat) : ∃ taken left, tail = taken ++ left ∧
    resyncStop tail offset = offset + utf8Len taken ∧ OneLine taken ∧
    ∀ text, closing '\'' tail = some text → taken = text := by
  have noClose {tail taken text : List Char} (none : closing '\'' tail = none) (found : closing '\'' tail = some text) :
      taken = text := by
    rw [none] at found
    cases found
  have oneSlash : OneLine ['\\'] := oneLine_cons.mpr ⟨rfl, oneLine_nil⟩
  induction tail, offset using resyncStop.induct with
  | case1 offset => exact ⟨[], [], rfl, rfl, oneLine_nil, fun _ => noClose rfl⟩
  | case2 rest offset =>
    refine ⟨['\''], rest, rfl, ?_, oneLine_cons.mpr ⟨rfl, oneLine_nil⟩, ?_⟩
    · cases rest <;> simp [resyncStop]
    · intro text found
      rw [closing_quote] at found
      exact Option.some.inj found
  | case3 c rest offset other ends =>
    refine ⟨[], c :: rest, rfl, ?_, oneLine_nil, fun _ => noClose (closing_lineEnd other ends)⟩
    cases rest <;> simp [resyncStop, other, ends]
  | case4 offset => exact ⟨['\\'], [], rfl, rfl, oneSlash, fun _ => noClose rfl⟩
  | case5 offset escaped rest ends other inLine =>
    refine ⟨['\\'], escaped :: rest, rfl, ?_, oneSlash, fun _ => noClose (closing_escapedLineEnd other ends)⟩
    simp [resyncStop, inLine, ends]
  | case6 offset escaped rest inLine other plain ih =>
    have inLine : isLineTerminator escaped = false := by simpa using inLine
    obtain ⟨taken, left, whole, stops, oneLine, closed⟩ := ih
    refine ⟨'\\' :: escaped :: taken, left, by rw [whole]; rfl, ?_,
      oneLine_cons.mpr ⟨rfl, oneLine_cons.mpr ⟨inLine, oneLine⟩⟩, ?_⟩
    · rw [resyncStop, if_neg other, if_neg plain, if_pos rfl, inLine, if_neg Bool.false_ne_true, stops, utf8Len_cons,
        utf8Len_cons]
      omega
    · intro text found
      rw [closing_escape other inLine] at found
      obtain ⟨inner, known, rfl⟩ := Option.map_eq_some_iff.mp found
      rw [closed inner known]
  | case7 c rest offset other inLine plain ih =>
    have inLine : isLineTerminator c = false := by simpa using inLine
    obtain ⟨taken, left, whole, stops, oneLine, closed⟩ := ih
    refine ⟨c :: taken, left, by rw [whole]; rfl, ?_, oneLine_cons.mpr ⟨inLine, oneLine⟩, ?_⟩
    · have step : resyncStop (c :: rest) offset = resyncStop rest (offset + c.utf8Size) := by
        cases rest <;> simp [resyncStop, other, inLine, plain]
      rw [step, stops, utf8Len_cons]
      omega
    · intro text found
      rw [closing_plain other inLine plain] at found
      obtain ⟨inner, known, rfl⟩ := Option.map_eq_some_iff.mp found
      rw [closed inner known]

/-- What is scanned over is cut at its line's end, if it reaches that. -/
theorem resync_eq (whole : scanner.remainder = content ++ tail) : ∃ taken left,
    content.dropWhile (!isLineTerminator ·) ++ tail = taken ++ left ∧ OneLine taken ∧
    (∀ text, closing '\'' (content.dropWhile (!isLineTerminator ·) ++ tail) = some text → taken = text) ∧
    resyncByteLiteral scanner scanner.remainder (utf8Len content) = some { scanner with
      slice := scanner.slice ++ (content.takeWhile (!isLineTerminator ·) ++ taken), remainder := left } := by
  obtain ⟨taken, left, rest, stops, oneLine, closed⟩ :=
    resyncStop_stops (content.dropWhile (!isLineTerminator ·) ++ tail) 0
  refine ⟨taken, left, rest, oneLine, closed, ?_⟩
  have cut : (if content.any isLineTerminator then utf8Len (content.takeWhile (!isLineTerminator ·))
      else utf8Len content) = utf8Len (content.takeWhile (!isLineTerminator ·)) := by
    split
    · rfl
    next inLine =>
      congr 1
      symm
      rw [List.takeWhile_eq_self_iff]
      intro c listed
      simpa using fun ends => inLine (List.any_eq_true.mpr ⟨c, listed, ends⟩)
  have parts : content ++ tail =
      content.takeWhile (!isLineTerminator ·) ++ (content.dropWhile (!isLineTerminator ·) ++ tail) := by
    rw [← List.append_assoc, List.takeWhile_append_dropWhile]
  have through : scanner.remainder = (content.takeWhile (!isLineTerminator ·) ++ taken) ++ left := by
    rw [whole, parts, rest, List.append_assoc]
  simp only [resyncByteLiteral, whole, splitBytes_append, Option.bind_eq_bind, Option.bind_some, cut]
  rw [parts, splitBytes_append, Option.bind_some, stops, Nat.zero_add, ← utf8Len_append, bump_eq through]

/-- Scanned over from content within the line, all of it is taken. -/
theorem resync_inside (inside : Inside content) (whole : scanner.remainder = content ++ tail)
    (reason : ByteLiteralReason) : ∃ taken left,
    resyncByteLiteral scanner scanner.remainder (utf8Len content) =
      some { scanner with slice := scanner.slice ++ taken, remainder := left } ∧
    ByteRead scanner taken left (.error (.malformedByteLiteral reason)) := by
  obtain ⟨taken, left, rest, oneLine, closed, resync⟩ := resync_eq whole
  have kept : content.takeWhile (!isLineTerminator ·) = content := by
    rw [List.takeWhile_eq_self_iff]
    intro c listed
    simp [inside.oneLine c listed]
  have nothing : content.dropWhile (!isLineTerminator ·) = [] := by
    rw [List.dropWhile_eq_nil_iff]
    intro c listed
    simp [inside.oneLine c listed]
  rw [kept] at resync
  rw [nothing, List.nil_append] at rest closed
  refine ⟨content ++ taken, left, resync, by rw [whole, rest, List.append_assoc], ?_, ?_, .inr ⟨reason, rfl⟩⟩
  · intro c listed
    rcases List.mem_append.mp listed with first | second
    · exact inside.oneLine c first
    · exact oneLine c second
  · intro text found
    rw [whole, inside.closing] at found
    obtain ⟨inner, known, rfl⟩ := Option.map_eq_some_iff.mp found
    rw [closed inner known]

theorem inside_nil : Inside [] where
  oneLine := oneLine_nil
  closing := by
    intro tail
    simp

theorem inside_one {c : Char} (other : c ≠ '\'') (inLine : isLineTerminator c = false) (plain : c ≠ '\\') :
    Inside [c] where
  oneLine := oneLine_cons.mpr ⟨inLine, oneLine_nil⟩
  closing := fun _ => closing_plain other inLine plain

theorem inside_escape {escape : Char} (inLine : isLineTerminator escape = false) : Inside ['\\', escape] where
  oneLine := oneLine_cons.mpr ⟨rfl, oneLine_cons.mpr ⟨inLine, oneLine_nil⟩⟩
  closing := fun _ => closing_escape (by decide) inLine

theorem closeByteLiteral_read (inside : Inside content) (holds : ByteContent content value)
    (whole : scanner.remainder = content ++ tail) : ∃ taken left outcome,
    closeByteLiteral scanner value (utf8Len content) =
      some ({ scanner with slice := scanner.slice ++ taken, remainder := left }, outcome) ∧
    ByteRead scanner taken left outcome := by
  rw [closeByteLiteral]
  cases tail with
  | nil =>
    refine ⟨content, [], _, ?_, whole, inside.oneLine, ?_, .inr ⟨.missingQuote, rfl⟩⟩
    · simp only [whole, splitBytes_append, bump_eq whole, Option.bind_eq_bind, Option.bind_some]
      rfl
    · intro text found
      rw [whole, inside.closing] at found
      cases found
  | cons c after =>
    simp only [whole, splitBytes_append, Option.bind_eq_bind, Option.bind_some]
    split
    next quote =>
      subst quote
      have through : scanner.remainder = (content ++ ['\'']) ++ after := by
        rw [whole, List.append_assoc]
        rfl
      have length : utf8Len content + 1 = utf8Len (content ++ ['\'']) := by
        rw [utf8Len_append]
        rfl
      refine ⟨content ++ ['\''], after, .ok (.int value), ?_, through, ?_, ?_, .inl ⟨value, content, rfl, rfl, holds⟩⟩
      · rw [length, bump_eq through]
        rfl
      · intro c listed
        rcases List.mem_append.mp listed with first | second
        · exact inside.oneLine c first
        · rw [List.mem_singleton.mp second]
          rfl
      · intro text found
        rw [whole, inside.closing, closing_quote] at found
        exact Option.some.inj found
    next other =>
      obtain ⟨taken, left, resync, read⟩ := resync_inside inside whole .moreThanOneByte
      refine ⟨taken, left, _, ?_, read⟩
      rw [← whole, resync]
      rfl

theorem byteEscape_inLine {escape : Char} {value : Nat} (known : byteEscape escape = some value) :
    isLineTerminator escape = false ∧ escape.utf8Size = 1 := by
  unfold byteEscape at known
  split at known
  all_goals first | exact ⟨rfl, rfl⟩ | cases known

theorem processByteLiteral_read (scanner : Scanner) : ∃ taken left outcome,
    processByteLiteral scanner =
      some ({ scanner with slice := scanner.slice ++ taken, remainder := left }, outcome) ∧
    ByteRead scanner taken left outcome := by
  have stopped {taken left : List Char} (reason : ByteLiteralReason) (whole : scanner.remainder = taken ++ left)
      (oneLine : OneLine taken) (none : closing '\'' scanner.remainder = none) :
      ByteRead scanner taken left (.error (.malformedByteLiteral reason)) := by
    refine ⟨whole, oneLine, ?_, .inr ⟨reason, rfl⟩⟩
    intro text found
    rw [none] at found
    cases found
  have stays : scanner = { scanner with slice := scanner.slice ++ [], remainder := scanner.remainder } := by
    rw [List.append_nil]
  have resynced {taken left : List Char} {reason : ByteLiteralReason} {consumed : Nat}
      (resync : resyncByteLiteral scanner scanner.remainder consumed =
        some { scanner with slice := scanner.slice ++ taken, remainder := left }) :
      (do
        let scanner ← resyncByteLiteral scanner scanner.remainder consumed
        return (scanner, .error (.malformedByteLiteral reason))) =
      some (({ scanner with slice := scanner.slice ++ taken, remainder := left } : Scanner),
        (Except.error (.malformedByteLiteral reason) : Except LexError TokenKind)) := by
    rw [resync]
    rfl
  have slash : Char.utf8Size '\\' = 1 := rfl
  have oneSlash : OneLine ['\\'] := oneLine_cons.mpr ⟨rfl, oneLine_nil⟩
  unfold processByteLiteral
  cases read : scanner.remainder with
  | nil =>
    refine ⟨[], scanner.remainder, _, ?_, stopped .unterminated rfl oneLine_nil (by rw [read]; rfl)⟩
    rw [← stays]
  | cons c rest =>
    dsimp only
    rw [← read]
    split
    next quote =>
      subst quote
      obtain ⟨taken, left, resync, result⟩ := resync_inside inside_nil read .noByte
      exact ⟨taken, left, _, resynced resync, result⟩
    next other =>
      split
      next ends =>
        refine ⟨[], scanner.remainder, _, ?_,
          stopped .lineEnded rfl oneLine_nil (by rw [read]; exact closing_lineEnd other ends)⟩
        rw [← stays]
      next inLine =>
        have inLine : isLineTerminator c = false := by simpa using inLine
        split
        next escaped =>
          subst escaped
          cases rest with
          | nil =>
            refine ⟨['\\'], [], _, ?_, stopped .unterminatedEscape read oneSlash (by rw [read]; rfl)⟩
            exact congrArg (Option.bind · _) (@bump_eq scanner ['\\'] [] read)
          | cons escape rest =>
            dsimp only
            have length : 1 + escape.utf8Size = utf8Len ['\\', escape] := by
              rw [utf8Len_cons, slash]
              rfl
            cases known : byteEscape escape with
            | some value =>
              dsimp only
              rw [length]
              exact closeByteLiteral_read (inside_escape (byteEscape_inLine known).1) (.inr ⟨escape, rfl, known⟩) read
            | none =>
              dsimp only
              rw [length]
              cases ends : isLineTerminator escape with
              | false =>
                obtain ⟨taken, left, resync, result⟩ := resync_inside (inside_escape ends) read (.unknownEscape escape)
                exact ⟨taken, left, _, resynced resync, result⟩
              | true =>
                have shape : scanner.remainder = ['\\', escape] ++ rest := read
                obtain ⟨taken, left, through, oneLine, -, resync⟩ := resync_eq shape
                have slashInLine : isLineTerminator '\\' = false := rfl
                simp only [List.dropWhile_cons, List.takeWhile_cons, slashInLine, ends, Bool.not_false, Bool.not_true,
                  if_true, Bool.false_eq_true, if_false] at through resync
                obtain rfl : taken = [] := by
                  cases taken with
                  | nil => rfl
                  | cons first taken =>
                    obtain rfl := (List.cons.inj through).1
                    rw [(oneLine_cons.mp oneLine).1] at ends
                    cases ends
                refine ⟨['\\'], left, _, resynced resync, stopped _ ?_ oneSlash ?_⟩
                · rw [shape]
                  exact congrArg ('\\' :: ·) through
                · rw [read]
                  exact closing_escapedLineEnd (by decide) ends
        next plain =>
          split
          next ascii =>
            have length : 1 = utf8Len [c] := by
              rw [utf8Len_cons, size_of_ascii ascii]
              rfl
            rw [length]
            exact closeByteLiteral_read (inside_one other inLine plain) (.inl ⟨c, rfl, rfl, ascii⟩) read
          next =>
            obtain ⟨taken, left, resync, result⟩ := resync_inside (inside_one other inLine plain) read (.notAscii c)
            exact ⟨taken, left, _, resynced resync, result⟩

end Bytes

/-- A later interner: keys keep their strings. -/
def Later (earlier later : Rodeo) : Prop := earlier.strings <+: later.strings

theorem intern_later {rodeo after : Rodeo} {text : List Char} {spur : Spur}
    (interned : rodeo.tryGetOrIntern text = .ok (spur, after)) :
    Later rodeo after ∧ after.strings[spur]? = some text := by
  rw [Rodeo.tryGetOrIntern] at interned
  split at interned
  next old found =>
    cases interned
    refine ⟨List.prefix_refl _, ?_⟩
    obtain ⟨inside, same, _⟩ := List.findIdx?_eq_some_iff_getElem.mp found
    rw [List.getElem?_eq_getElem inside, eq_of_beq same]
  next =>
    split at interned
    · cases interned
    · split at interned
      · cases interned
        refine ⟨List.prefix_append _ _, ?_⟩
        rw [List.getElem?_append_right (Nat.le_refl _), Nat.sub_self]
        rfl
      · cases interned

structure Interned (text : List Char) (kind : Spur → TokenKind) (before after : Rodeo)
    (outcome : Except LexError TokenKind) : Prop where
  later : Later before after
  outcome : (∃ spur, outcome = .ok (kind spur) ∧ after.strings[spur]? = some text) ∨
    ∃ error, outcome = .error (.internerExhausted error)

theorem Scanner.intern_interned (scanner : Scanner) (text : List Char) (kind : Spur → TokenKind) :
    ∃ extras outcome, scanner.intern text kind = ({ scanner with extras }, outcome) ∧
      Interned text kind scanner.extras extras outcome := by
  rw [Scanner.intern]
  split
  next spur extras interned =>
    obtain ⟨later, resolves⟩ := intern_later interned
    exact ⟨extras, _, rfl, later, .inl ⟨spur, rfl, resolves⟩⟩
  next error _ => exact ⟨scanner.extras, _, rfl, List.prefix_refl _, .inr ⟨error, rfl⟩⟩

structure StringRead (scanner : Scanner) (taken left : List Char) (extras : Rodeo)
    (outcome : Except LexError TokenKind) : Prop where
  whole : scanner.remainder = taken ++ left
  oneLine : OneLine taken
  closed : ∀ text, closing '"' scanner.remainder = some text → taken = text
  later : Later scanner.extras extras
  outcome : (∃ spur content text, outcome = .ok (.string spur) ∧ taken = content ++ ['"'] ∧
      unescape content = some text ∧ extras.strings[spur]? = some text) ∨
    outcome = .error .unterminatedString ∨ (∃ error, outcome = .error (.internerExhausted error)) ∨
    ∃ offset escape, outcome = .error (.invalidStringEscape offset escape) ∧ offset + escape.utf8Size ≤ utf8Len taken

/-- A string literal, read from its opening quote on. -/
theorem processStringFromQuote_read (scanner : Scanner) (fits : utf8Len scanner.remainder + 1 < 2 ^ 32) :
    ∃ taken left extras outcome, processStringFromQuote scanner =
      some ({ scanner with slice := scanner.slice ++ taken, remainder := left, extras }, outcome) ∧
    StringRead scanner taken left extras outcome := by
  obtain ⟨scan, taken, left, scans, scanned⟩ := scanString_scanned scanner.remainder 0 [] none (by omega)
    (fun error none => by cases none)
  have length : scan.consumed = utf8Len taken := by rw [scanned.consumed, Nat.zero_add]
  have closed (text : List Char) (found : closing '"' scanner.remainder = some text) : taken = text := by
    rw [scanned.closed] at found
    split at found
    · exact Option.some.inj found
    · cases found
  have kept (error : LexError) (pending : scan.pendingError = some error) : ∃ offset escape,
      error = .invalidStringEscape offset escape ∧ offset + escape.utf8Size ≤ utf8Len taken := by
    rw [← length]
    exact scanned.kept error pending
  have start : processStringFromQuote scanner = (do
      if !scan.foundClose then
        return ({ scanner with slice := scanner.slice ++ taken, remainder := left },
          .error (scan.pendingError.getD .unterminatedString))
      scan.pendingError.elim
        (return ({ scanner with slice := scanner.slice ++ taken, remainder := left } : Scanner).intern scan.result .string)
        fun error => return ({ scanner with slice := scanner.slice ++ taken, remainder := left }, .error error)) := by
    rw [processStringFromQuote, scans]
    simp only [Option.bind_eq_bind, Option.bind_some, length, bump_eq scanned.whole]
    cases scan.pendingError <;> rfl
  rw [start]
  cases found : scan.foundClose with
  | false =>
    refine ⟨taken, left, scanner.extras, _, rfl, scanned.whole, scanned.oneLine, closed, List.prefix_refl _, ?_⟩
    cases pending : scan.pendingError with
    | none => exact .inr (.inl rfl)
    | some error =>
      obtain ⟨offset, escape, rfl, within⟩ := kept error pending
      exact .inr (.inr (.inr ⟨offset, escape, rfl, within⟩))
  | true =>
    cases pending : scan.pendingError with
    | some error =>
      obtain ⟨offset, escape, rfl, within⟩ := kept error pending
      exact ⟨taken, left, scanner.extras, _, rfl, scanned.whole, scanned.oneLine, closed, List.prefix_refl _,
        .inr (.inr (.inr ⟨offset, escape, rfl, within⟩))⟩
    | none =>
      obtain ⟨content, text, ends, escapes, reads⟩ := scanned.value found pending
      obtain ⟨extras, outcome, interns, interned⟩ := Scanner.intern_interned
        { scanner with slice := scanner.slice ++ taken, remainder := left } scan.result .string
      refine ⟨taken, left, extras, outcome, congrArg some interns, scanned.whole, scanned.oneLine, closed, interned.later, ?_⟩
      rcases interned.outcome with ⟨spur, ok, resolves⟩ | failed
      · exact .inl ⟨spur, content, text, ok, ends, escapes, by rw [resolves, reads]; rfl⟩
      · exact .inr (.inr (.inl failed))

end Rue.Proofs.Lexing
