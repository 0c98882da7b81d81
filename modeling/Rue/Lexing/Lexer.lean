import Rue.Lexing.Token

/-! The lexer of a file: the scanner's state, the callbacks that read on by hand,
the loop over the matches, and the view of a file as fragments. A panic is no
result. -/

namespace Rue.Lexing
open Rue.Lib

def maxInternedStrings : Nat := 2 ^ 32 - 1

def lexerDiagnosticBudget : Nat := 100

def bom : Char := '\ufeff'

def utf8Len (text : List Char) : Nat := (text.map Char.utf8Size).sum

/-- A text cut after a number of bytes, which must end at a character of it. -/
def splitBytes : List Char → Nat → Option (List Char × List Char)
  | rest, 0 => some ([], rest)
  | [], _ + 1 => none
  | c :: rest, bytes + 1 =>
    if c.utf8Size ≤ bytes + 1 then
      (splitBytes rest (bytes + 1 - c.utf8Size)).map fun (before, after) => (c :: before, after)
    else none

def spanOffset (offset : Nat) : Option Nat := if offset < 2 ^ 32 then some offset else none

/-- A sum of `u32` offsets. -/
def addOffsets (first second : Nat) : Option Nat := spanOffset (first + second)

inductive LassoErrorKind where
  | keySpaceExhaustion
  | failedAllocation
  deriving DecidableEq

/-- The interner: its strings by key, and whether memory for one more is found. -/
structure Rodeo where
  strings : List (List Char)
  allocates : List Char → Bool

def Rodeo.tryGetOrIntern (rodeo : Rodeo) (text : List Char) : Except LassoErrorKind (Spur × Rodeo) :=
  match rodeo.strings.idxOf? text with
  | some spur => .ok (spur, rodeo)
  | none =>
    if maxInternedStrings ≤ rodeo.strings.length then .error .keySpaceExhaustion
    else if rodeo.allocates text then
      .ok (rodeo.strings.length, { rodeo with strings := rodeo.strings ++ [text] })
    else .error .failedAllocation

/-- Why a byte literal is malformed. -/
inductive ByteLiteralReason where
  | unterminated
  | noByte
  | lineEnded
  | unterminatedEscape
  | unknownEscape (escape : Char)
  | notAscii (found : Char)
  | moreThanOneByte
  | missingQuote
  deriving DecidableEq

inductive FloatLiteralReason where
  | leadingDot (text : List Char)
  | missingExponent (text : List Char)
  deriving DecidableEq

inductive LexError where
  | unexpectedCharacter
  | invalidInteger
  | invalidStringEscape (offset : Nat) (escape : Char)
  | unterminatedString
  | internerExhausted (kind : LassoErrorKind)
  | uppercaseBasePrefix (marker : Char)
  | emptyBasedLiteral (base : String)
  | invalidDigitForBase (digit : Char) (base : String) (offset : Nat)
  | malformedByteLiteral (reason : ByteLiteralReason)
  | malformedFloatLiteral (reason : FloatLiteralReason)
  deriving DecidableEq

/-- The scanner between two reads: the text before the current token, the
token's text so far, and the text after it. -/
structure Scanner where
  passed : List Char
  slice : List Char
  remainder : List Char
  extras : Rodeo

namespace Scanner

def start (scanner : Scanner) : Nat := utf8Len scanner.passed

def stop (scanner : Scanner) : Nat := utf8Len scanner.passed + utf8Len scanner.slice

/-- The token is made longer by a number of bytes. -/
def bump (scanner : Scanner) (bytes : Nat) : Option Scanner :=
  (splitBytes scanner.remainder bytes).map fun (taken, rest) =>
    { scanner with slice := scanner.slice ++ taken, remainder := rest }

/-- The token is made longer by a number of characters the scan has matched. -/
def take (scanner : Scanner) (count : Nat) : Scanner :=
  { scanner with
    slice := scanner.slice ++ scanner.remainder.take count, remainder := scanner.remainder.drop count }

/-- The next token starts where the current one ends. -/
def trivia (scanner : Scanner) : Scanner := { scanner with passed := scanner.passed ++ scanner.slice, slice := [] }

def intern (scanner : Scanner) (text : List Char) (kind : Spur → TokenKind) : Scanner × Except LexError TokenKind :=
  match scanner.extras.tryGetOrIntern text with
  | .ok (spur, extras) => ({ scanner with extras }, .ok (kind spur))
  | .error error => (scanner, .error (.internerExhausted error))

end Scanner

/-- The character a string literal's escape stands for. -/
def stringEscape : Char → Option Char
  | '\\' => some '\\'
  | '"' => some '"'
  | 'n' => some '\n'
  | 't' => some '\t'
  | 'r' => some '\r'
  | '0' => some (Char.ofNat 0)
  | _ => none

structure StringScan where
  consumed : Nat
  result : List Char
  pendingError : Option LexError
  foundClose : Bool

/-- The scan of a string literal after its opening quote. An invalid escape is
kept for later, so that the scan goes on to the closing quote. -/
def scanString : List Char → Nat → List Char → Option LexError → Option StringScan
  | [], consumed, result, pendingError => some { consumed, result, pendingError, foundClose := false }
  | c :: rest, consumed, result, pendingError =>
    if c = '"' then some { consumed := consumed + 1, result, pendingError, foundClose := true }
    else if c = '\\' then do
      let offset ← spanOffset consumed
      let offset ← addOffsets offset 1
      match rest with
      | [] => some { consumed := consumed + c.utf8Size, result, pendingError, foundClose := false }
      | escape :: rest =>
        match stringEscape escape with
        | some byte => scanString rest (consumed + c.utf8Size + 1) (result ++ [byte]) pendingError
        | none =>
          if isLineTerminator escape then
            some { consumed := consumed + c.utf8Size, result, pendingError, foundClose := false }
          else
            scanString rest (consumed + c.utf8Size + escape.utf8Size) result
              (pendingError.or (some (.invalidStringEscape offset escape)))
    else if isLineTerminator c then some { consumed, result, pendingError, foundClose := false }
    else scanString rest (consumed + c.utf8Size) (result ++ [c]) pendingError

def processStringFromQuote (scanner : Scanner) : Option (Scanner × Except LexError TokenKind) := do
  let scan ← scanString scanner.remainder 0 [] none
  let scanner ← scanner.bump scan.consumed
  if !scan.foundClose then return (scanner, .error (scan.pendingError.getD .unterminatedString))
  match scan.pendingError with
  | some error => return (scanner, .error error)
  | none => return scanner.intern scan.result .string

def u64Max : Nat := 2 ^ 64 - 1

def checkedMul (first second : Nat) : Option Nat := if first * second ≤ u64Max then some (first * second) else none

def checkedAdd (first second : Nat) : Option Nat := if first + second ≤ u64Max then some (first + second) else none

def toDigit (radix : Nat) (c : Char) : Option Nat :=
  let value : Option Nat :=
    if c.isDigit then some (c.toNat - '0'.toNat)
    else if c.isLower then some (c.toNat - 'a'.toNat + 10)
    else if c.isUpper then some (c.toNat - 'A'.toNat + 10)
    else none
  value.filter (· < radix)

def parseDecimalDigits : List Char → Nat → Option (Except LexError Nat)
  | [], value => some (.ok value)
  | c :: rest, value =>
    if c = '_' then parseDecimalDigits rest value
    else do
      let digit ← toDigit 10 c
      match (checkedMul value 10).bind fun shifted => checkedAdd shifted digit with
      | some value => parseDecimalDigits rest value
      | none => some (.error .invalidInteger)

def parseDecimalLiteral (slice : List Char) : Option (Except LexError Nat) := parseDecimalDigits slice 0

/-- The digits after a base's marker, with their byte offset in the token. -/
def parseBasedDigits (base : String) (radix : Nat) : List Char → Nat → Nat → Bool → Option (Except LexError Nat)
  | [], _, value, seenDigit => some (if seenDigit then .ok value else .error (.emptyBasedLiteral base))
  | c :: rest, offset, value, seenDigit =>
    if c = '_' then parseBasedDigits base radix rest (offset + c.utf8Size) value seenDigit
    else do
      let place ← spanOffset offset
      match toDigit radix c with
      | none => some (.error (.invalidDigitForBase c base place))
      | some digit =>
        match (checkedMul value radix).bind fun shifted => checkedAdd shifted digit with
        | some value => parseBasedDigits base radix rest (offset + c.utf8Size) value true
        | none => some (.error .invalidInteger)

/-- The base a marker in lower case names. -/
def baseOf : Char → Option (String × Nat)
  | 'x' => some ("hexadecimal", 16)
  | 'o' => some ("octal", 8)
  | 'b' => some ("binary", 2)
  | _ => none

def parseBasedLiteral (slice : List Char) : Option (Except LexError Nat) := do
  let marker ← slice[1]?
  let (base, radix) ← baseOf marker.toLower
  if marker.isUpper then return .error (.uppercaseBasePrefix marker)
  let (_, digits) ← splitBytes slice 2
  parseBasedDigits base radix digits 2 0 false

/-- Where the scan for the end of a malformed byte literal stops: after a closing
quote, or before a line terminator. -/
def resyncStop : List Char → Nat → Nat
  | [], offset => offset
  | c :: rest, offset =>
    if c = '\'' then offset + c.utf8Size
    else if isLineTerminator c then offset
    else if c = '\\' then
      match rest with
      | [] => offset + c.utf8Size
      | escaped :: rest =>
        if isLineTerminator escaped then offset + c.utf8Size
        else resyncStop rest (offset + c.utf8Size + escaped.utf8Size)
    else resyncStop rest (offset + c.utf8Size)

def resyncByteLiteral (scanner : Scanner) (remainder : List Char) (consumed : Nat) : Option Scanner := do
  let (content, _) ← splitBytes remainder consumed
  let consumed := if content.any isLineTerminator then utf8Len (content.takeWhile (!isLineTerminator ·)) else consumed
  let (_, tail) ← splitBytes remainder consumed
  scanner.bump (consumed + resyncStop tail 0)

/-- The byte a byte literal's escape stands for. -/
def byteEscape : Char → Option Nat
  | '\\' => some 92
  | '\'' => some 39
  | '"' => some 34
  | 'n' => some 10
  | 't' => some 9
  | 'r' => some 13
  | '0' => some 0
  | _ => none

/-- The closing quote is expected right after the content of a byte literal. -/
def closeByteLiteral (scanner : Scanner) (value contentLen : Nat) : Option (Scanner × Except LexError TokenKind) := do
  let (_, after) ← splitBytes scanner.remainder contentLen
  match after with
  | [] =>
    let scanner ← scanner.bump contentLen
    return (scanner, .error (.malformedByteLiteral .missingQuote))
  | c :: _ =>
    if c = '\'' then
      let scanner ← scanner.bump (contentLen + 1)
      return (scanner, .ok (.int value))
    else
      let scanner ← resyncByteLiteral scanner scanner.remainder contentLen
      return (scanner, .error (.malformedByteLiteral .moreThanOneByte))

def processByteLiteral (scanner : Scanner) : Option (Scanner × Except LexError TokenKind) :=
  match scanner.remainder with
  | [] => some (scanner, .error (.malformedByteLiteral .unterminated))
  | c :: rest =>
    if c = '\'' then do
      let scanner ← resyncByteLiteral scanner scanner.remainder 0
      return (scanner, .error (.malformedByteLiteral .noByte))
    else if isLineTerminator c then some (scanner, .error (.malformedByteLiteral .lineEnded))
    else if c = '\\' then
      match rest with
      | [] => do
        let scanner ← scanner.bump 1
        return (scanner, .error (.malformedByteLiteral .unterminatedEscape))
      | escape :: _ =>
        match byteEscape escape with
        | some byte => closeByteLiteral scanner byte (1 + escape.utf8Size)
        | none => do
          let scanner ← resyncByteLiteral scanner scanner.remainder (1 + escape.utf8Size)
          return (scanner, .error (.malformedByteLiteral (.unknownEscape escape)))
    else if c.toNat < 128 then closeByteLiteral scanner c.toNat 1
    else do
      let scanner ← resyncByteLiteral scanner scanner.remainder c.utf8Size
      return (scanner, .error (.malformedByteLiteral (.notAscii c)))

/-! The generated scanner, whose matches are given, and the loop over them. -/

def intResult (scanner : Scanner) (parsed : Option (Except LexError Nat)) : Option (Scanner × Except LexError TokenKind) :=
  parsed.map fun result => (scanner, result.map .int)

/-- What a rule makes of the text it matched. -/
def callback (scanner : Scanner) : Rule → Option (Scanner × Except LexError TokenKind)
  | .skip => none
  | .token kind => some (scanner, .ok kind)
  | .decimal => intResult scanner (parseDecimalLiteral scanner.slice)
  | .based => intResult scanner (parseBasedLiteral scanner.slice)
  | .byte => processByteLiteral scanner
  | .float => some (scanner.intern (scanner.slice.filter (· ≠ '_')) .float)
  | .leadingDot => some (scanner, .error (.malformedFloatLiteral (.leadingDot scanner.slice)))
  | .emptyExponent => some (scanner, .error (.malformedFloatLiteral (.missingExponent scanner.slice)))
  | .string => processStringFromQuote scanner
  | .ident => some (scanner.intern scanner.slice .ident)

inductive ErrorKind where
  | invalidInteger
  | compilerResourceLimit
  | compilerResourceExhaustion
  | unexpectedCharacter (found : Char)
  | invalidStringEscape (escape : Char)
  | unterminatedString
  | uppercaseBasePrefix (marker : Char)
  | emptyBasedLiteral (base : String)
  | malformedByteLiteral (reason : ByteLiteralReason)
  | malformedFloatLiteral (reason : FloatLiteralReason)
  | invalidDigitForBase (digit : Char) (base : String)
  | lexerDiagnosticsOmitted (limit : Nat)
  deriving DecidableEq

def ErrorKind.isResource : ErrorKind → Bool
  | .compilerResourceLimit | .compilerResourceExhaustion => true
  | _ => false

structure CompileError where
  kind : ErrorKind
  span : Option (Nat × Nat)
  help : Option String
  deriving DecidableEq

structure Token where
  kind : TokenKind
  start : Nat
  stop : Nat
  deriving DecidableEq

/-- The diagnostic of an error, at the whole token or at what is wrong in it. -/
def diagnose (scanner : Scanner) (error : LexError) : Option (ErrorKind × Nat × Nat) := do
  let whole (kind : ErrorKind) : Option (ErrorKind × Nat × Nat) := do
    let start ← spanOffset scanner.start
    let stop ← spanOffset scanner.stop
    return (kind, start, stop)
  match error with
  | .invalidInteger => whole .invalidInteger
  | .internerExhausted .failedAllocation => whole .compilerResourceExhaustion
  | .internerExhausted .keySpaceExhaustion => whole .compilerResourceLimit
  | .unexpectedCharacter => whole (.unexpectedCharacter (scanner.slice.headD '?'))
  | .invalidStringEscape offset escape =>
    let start ← spanOffset scanner.start
    let start ← addOffsets start offset
    let after ← addOffsets start 1
    let stop ← addOffsets after escape.utf8Size
    return (.invalidStringEscape escape, start, stop)
  | .unterminatedString => whole .unterminatedString
  | .uppercaseBasePrefix marker => whole (.uppercaseBasePrefix marker)
  | .emptyBasedLiteral base => whole (.emptyBasedLiteral base)
  | .malformedByteLiteral reason => whole (.malformedByteLiteral reason)
  | .malformedFloatLiteral reason => whole (.malformedFloatLiteral reason)
  | .invalidDigitForBase digit base offset =>
    let start ← spanOffset scanner.start
    let start ← addOffsets start offset
    let stop ← addOffsets start digit.utf8Size
    return (.invalidDigitForBase digit base, start, stop)

def bomHelp : String :=
  "this invisible character is a UTF-8 byte-order mark (BOM); a BOM is only ignored at the very start of a file "
    ++ "— remove this one"

def CompileError.of (kind : ErrorKind) (start stop : Nat) : CompileError where
  kind := kind
  span := some (start, stop)
  help := if kind = .unexpectedCharacter bom then some bomHelp else none

structure Collected where
  scanner : Scanner
  tokens : List Token
  errors : List CompileError
  diagnosticsSummarized : Bool

section

variable (scan : List Char → Option (Rule × Nat))

/-- The next token, or none at the end of the text; skipped matches are passed
over, and what no rule matches is an error of one character. -/
def lexToken : Nat → Scanner → Option (Option (Scanner × Except LexError TokenKind))
  | 0, _ => none
  | fuel + 1, scanner =>
    let scanner := scanner.trivia
    match scanner.remainder with
    | [] => some none
    | _ :: _ =>
      match scan scanner.remainder with
      | none => some (some (scanner.take 1, .error .unexpectedCharacter))
      | some (.skip, count) => lexToken fuel (scanner.take count)
      | some (rule, count) => (callback (scanner.take count) rule).map some

/-- An error of one token; the loop ends at one of resources. -/
def recordError (state : Collected) (kind : ErrorKind) (start stop : Nat) : Collected × Bool :=
  if kind.isResource then
    ({ state with errors := state.errors ++ [{ kind, span := some (start, stop), help := none }] }, false)
  else if state.diagnosticsSummarized then (state, true)
  else if state.errors.length = lexerDiagnosticBudget then
    ({ state with
      errors := state.errors ++
        [{ kind := .lexerDiagnosticsOmitted lexerDiagnosticBudget, span := some (start, stop), help := none }]
      diagnosticsSummarized := true }, true)
  else ({ state with errors := state.errors ++ [CompileError.of kind start stop] }, true)

def tokenizeLoop : Nat → Collected → Option Collected
  | 0, _ => none
  | fuel + 1, state => do
    match ← lexToken scan (state.scanner.remainder.length + 1) state.scanner with
    | none => return state
    | some (scanner, .ok kind) =>
      let start ← spanOffset scanner.start
      let stop ← spanOffset scanner.stop
      tokenizeLoop fuel { state with scanner, tokens := state.tokens ++ [{ kind, start, stop }] }
    | some (scanner, .error error) =>
      let (kind, start, stop) ← diagnose scanner error
      match recordError { state with scanner } kind start stop with
      | (state, true) => tokenizeLoop fuel state
      | (state, false) => return state

/-- All tokens that can be recovered, with the one at the end of the file. -/
def tokenizeRecoveredPreservingInterner (source : List Char) (interner : Rodeo) :
    Option (List Token × Rodeo × List CompileError) :=
  match spanOffset (utf8Len source) with
  | none => some ([], interner, [{ kind := .compilerResourceLimit, span := none, help := none }])
  | some sourceLen => do
    let scanner : Scanner := { passed := [], slice := [], remainder := source, extras := interner }
    let scanner ← if source.head? = some bom then scanner.bump bom.utf8Size else some scanner
    let state ← tokenizeLoop scan (source.length + 1)
      { scanner, tokens := [], errors := [], diagnosticsSummarized := false }
    return (state.tokens ++ [{ kind := .eof, start := sourceLen, stop := sourceLen }], state.scanner.extras, state.errors)

end

inductive Fragment where
  | token (kind : TokenKind) (start stop : Nat) (text : List Char)
  | gap (start stop : Nat) (text : List Char)

def Fragment.text : Fragment → List Char
  | .token _ _ _ text | .gap _ _ text => text

def sliceBytes (source : List Char) (start stop : Nat) : Option (List Char) := do
  let (_, rest) ← splitBytes source start
  if start ≤ stop then
    let (text, _) ← splitBytes rest (stop - start)
    return text
  else none

structure Fragments where
  source : List Char
  tokens : List Token
  nextToken : Nat
  cursor : Nat

namespace Fragments

/-- After the last token, the text that is left. -/
def trailing (view : Fragments) : Option (Option (Fragment × Fragments)) :=
  if view.cursor < utf8Len view.source then do
    let start ← spanOffset view.cursor
    let stop ← spanOffset (utf8Len view.source)
    let text ← sliceBytes view.source view.cursor (utf8Len view.source)
    return some (.gap start stop text, { view with cursor := utf8Len view.source })
  else some none

/-- The next fragment, with the view after it. -/
def next (view : Fragments) : Option (Option (Fragment × Fragments)) :=
  match view.tokens[view.nextToken]? with
  | none => view.trailing
  | some token =>
    if token.kind = .eof then trailing { view with nextToken := view.tokens.length }
    else if view.cursor < token.start then do
      let start ← spanOffset view.cursor
      let stop ← spanOffset token.start
      let text ← sliceBytes view.source view.cursor token.start
      return some (.gap start stop text, { view with cursor := token.start })
    else do
      let text ← sliceBytes view.source token.start token.stop
      return some (.token token.kind token.start token.stop text,
        { view with nextToken := view.nextToken + 1, cursor := token.stop })

def collect : Nat → Fragments → Option (List Fragment)
  | 0, _ => none
  | fuel + 1, view => do
    match ← view.next with
    | none => return []
    | some (fragment, view) =>
      let rest ← collect fuel view
      return fragment :: rest

end Fragments

/-- The fragments of a file's tokens. -/
def fragments (source : List Char) (tokens : List Token) : Option (List Fragment) :=
  Fragments.collect (2 * tokens.length + 2) { source, tokens, nextToken := 0, cursor := 0 }

end Rue.Lexing
