import Mathlib.Algebra.Order.Ring.Int
import Rue.Lib.Regex

/-! Token kinds, and the rules the generated scanner matches: its skips, its
fixed spellings, and the patterns whose text a callback reads. -/

namespace Rue.Lexing
open Rue.Lib

abbrev Spur := Nat

inductive TokenKind where
  | fn | let' | mut' | inout | borrow | if' | else' | match' | while' | loop | for' | in' | break'
  | continue' | return' | yield | true' | false' | struct | enum | impl | interface | drop | linear
  | selfValue | selfType | comptime | pub | const | checked | unchecked | ptr | externBlock | i8
  | i16 | i32 | i64 | u8 | u16 | u32 | u64 | bool | f32 | f64 | type | underscore
  | int (value : Nat) | float (text : Spur) | string (text : Spur) | ident (name : Spur)
  | eqEq | bangEq | ltEq | gtEq | ampAmp | pipePipe | ltLt | gtGt | arrow | fatArrow | plusEq
  | minusEq | starEq | slashEq | percentEq | ampEq | pipeEq | caretEq | ltLtEq | gtGtEq
  | colonColon | plus | minus | star | slash | percent | eq | bang | lt | gt | amp | pipe | caret
  | tilde | lParen | rParen | lBrace | rBrace | lBracket | rBracket | colon | semi | comma | dot
  | at' | question
  | eof
  deriving DecidableEq

def wordTokens : List (String × TokenKind) := [
  ("fn", .fn), ("let", .let'), ("mut", .mut'), ("inout", .inout), ("borrow", .borrow), ("if", .if'),
  ("else", .else'), ("match", .match'), ("while", .while'), ("loop", .loop), ("for", .for'), ("in", .in'),
  ("break", .break'), ("continue", .continue'), ("return", .return'), ("yield", .yield), ("true", .true'),
  ("false", .false'), ("struct", .struct), ("enum", .enum), ("impl", .impl), ("interface", .interface),
  ("drop", .drop), ("linear", .linear), ("self", .selfValue), ("Self", .selfType), ("comptime", .comptime),
  ("pub", .pub), ("const", .const), ("checked", .checked), ("unchecked", .unchecked), ("ptr", .ptr),
  ("extern", .externBlock), ("i8", .i8), ("i16", .i16), ("i32", .i32), ("i64", .i64), ("u8", .u8), ("u16", .u16),
  ("u32", .u32), ("u64", .u64), ("bool", .bool), ("f32", .f32), ("f64", .f64), ("type", .type), ("_", .underscore) ]

def operatorTokens : List (String × TokenKind) := [
  ("==", .eqEq), ("!=", .bangEq), ("<=", .ltEq), (">=", .gtEq), ("&&", .ampAmp), ("||", .pipePipe), ("<<", .ltLt),
  (">>", .gtGt), ("->", .arrow), ("=>", .fatArrow), ("+=", .plusEq), ("-=", .minusEq), ("*=", .starEq),
  ("/=", .slashEq), ("%=", .percentEq), ("&=", .ampEq), ("|=", .pipeEq), ("^=", .caretEq), ("<<=", .ltLtEq),
  (">>=", .gtGtEq), ("::", .colonColon), ("+", .plus), ("-", .minus), ("*", .star), ("/", .slash), ("%", .percent),
  ("=", .eq), ("!", .bang), ("<", .lt), (">", .gt), ("&", .amp), ("|", .pipe), ("^", .caret), ("~", .tilde),
  ("(", .lParen), (")", .rParen), ("\x7b", .lBrace), ("\x7d", .rBrace), ("[", .lBracket), ("]", .rBracket),
  (":", .colon), (";", .semi), (",", .comma), (".", .dot), ("@", .at'), ("?", .question) ]

inductive Rule where
  | skip
  | token (kind : TokenKind)
  | decimal
  | based
  | byte
  | float
  | leadingDot
  | emptyExponent
  | string
  | ident
  deriving DecidableEq

def isLineTerminator (c : Char) : Bool := c = '\n' || c = '\r'

def isDigitOrSeparator (c : Char) : Bool := c.isDigit || c = '_'

def isWordChar (c : Char) : Bool := c.isAlphanum || c = '_'

/-- A digit, then digits and separators. -/
def digitRun : Regex Char := .chain (.one Char.isDigit) (.many (.one isDigitOrSeparator))

def basedPattern : Regex Char :=
  .chain (.one (· == '0')) (.chain (.one fun c => c ∈ ['x', 'X', 'b', 'B', 'o', 'O']) (.many (.one isWordChar)))

def identPattern : Regex Char := .chain (.one fun c => c.isAlpha || c = '_') (.many (.one isWordChar))

/-- The marker of an exponent, and its sign. -/
def exponentMarker : Regex Char := .chain (.one fun c => c = 'e' || c = 'E') (.optional (.one fun c => c = '+' || c = '-'))

def exponent : Regex Char := .chain exponentMarker digitRun

def fraction : Regex Char := .chain (.one (· == '.')) digitRun

def spelled (tokens : List (String × TokenKind)) : List (Regex Char × Rule) :=
  tokens.map fun (spelling, kind) => (.literal spelling.toList, .token kind)

/-- In the order they are declared. Where two rules match as much, the earlier
one does: only a reserved word and an identifier can. -/
def rules : List (Regex Char × Rule) :=
  [(.atLeastOne (.one fun c => c ∈ [' ', '\t', '\n', '\r']), .skip),
    (.chain (.literal ['/', '/']) (.many (.one fun c => !isLineTerminator c)), .skip)] ++
  spelled wordTokens ++
  [(digitRun, .decimal), (basedPattern, .based), (.literal ['b', '\''], .byte),
    (.chain digitRun (.chain fraction (.optional exponent)), .float), (.chain digitRun exponent, .float),
    (.chain fraction (.optional exponent), .leadingDot),
    (.chain digitRun (.chain (.optional fraction) exponentMarker), .emptyExponent),
    (.literal ['"'], .string), (identPattern, .ident)] ++
  spelled operatorTokens

end Rue.Lexing
