import Mathlib.Data.List.Basic

/-! JSON values and the parser that reads them from bytes. Every read is guarded
by its bounds check, except where one that is not can trap. -/

namespace Rue.Text

abbrev StrBuf := List UInt8

inductive Json where
  | null
  | bool (value : Bool)
  | number (spelling : StrBuf)
  | string (value : StrBuf)
  | array (items : List Json)
  | object (keys : List StrBuf) (values : List Json)

/-- The offset names the first byte that could not be accepted. -/
inductive ParseError where
  | unexpectedEnd (offset : Nat)
  | unexpectedByte (offset : Nat)
  | invalidNumber (offset : Nat)
  | invalidEscape (offset : Nat)
  | invalidUnicode (offset : Nat)
  | trailingCharacters (offset : Nat)
  | nestingTooDeep (offset : Nat)
  deriving DecidableEq

/-- Why a parsing function gives no value: an error it reports, a trap, or a loop
that has not ended when the tries are used up. -/
inductive Failure where
  | reported (error : ParseError)
  | trap
  | endless

abbrev Outcome (α : Type) := Except Failure α

def fail {α : Type} (error : ParseError) : Outcome α := .error (.reported error)

def isDigit (b : UInt8) : Bool := 48 ≤ b.toNat && b.toNat ≤ 57

def isSpace (b : UInt8) : Bool := b.toNat = 32 || b.toNat = 9 || b.toNat = 10 || b.toNat = 13

/-- A conversion to a byte that traps when it does not fit. -/
def intCastU8 (value : Nat) : Outcome UInt8 := if value < 256 then .ok (UInt8.ofNat value) else .error .trap

section

variable (input : StrBuf)

def skipSpace (pos : Nat) : Nat :=
  if pos < input.length then
    match input[pos]? with
    | some b => if isSpace b then skipSpace (pos + 1) else pos
    | none => pos
  else pos
termination_by input.length - pos

def parseLiteral (pos : Nat) : StrBuf → Outcome Nat
  | [] => .ok pos
  | expected :: rest =>
    match input[pos]? with
    | none => fail (.unexpectedEnd pos)
    | some b => if b ≠ expected then fail (.unexpectedByte pos) else parseLiteral (pos + 1) rest

def hexValue (b : UInt8) : Option Nat :=
  let b := b.toNat
  if 48 ≤ b ∧ b ≤ 57 then some (b - 48)
  else if 65 ≤ b ∧ b ≤ 70 then some (b - 65 + 10)
  else if 97 ≤ b ∧ b ≤ 102 then some (b - 97 + 10)
  else none

/-- The digits that are left, with the value of those read. -/
def parseHexDigits (requireLowSurrogate : Bool) : Nat → Nat → Nat → Outcome (Nat × Nat)
  | 0, pos, value => .ok (value, pos)
  | left + 1, pos, value =>
    match input[pos]? with
    | none => fail (.unexpectedEnd pos)
    | some b =>
      match hexValue b with
      | none => fail (.invalidUnicode pos)
      | some digit =>
        if requireLowSurrogate ∧ left = 3 ∧ digit ≠ 13 then fail (.invalidUnicode pos)
        else if left = 2 ∧ value = 13 ∧ (!requireLowSurrogate ∧ digit ≥ 12 ∨ requireLowSurrogate ∧ digit < 12) then
          fail (.invalidUnicode pos)
        else parseHexDigits requireLowSurrogate left (pos + 1) (value * 16 + digit)

def parseHex4 (pos : Nat) (requireLowSurrogate : Bool) : Outcome (Nat × Nat) :=
  parseHexDigits input requireLowSurrogate 4 pos 0

def pushCodepoint (out : StrBuf) (cp position : Nat) : Outcome StrBuf :=
  if cp ≤ 127 then do return out ++ [← intCastU8 cp]
  else if cp ≤ 2047 then do return out ++ [← intCastU8 (192 ||| cp >>> 6), ← intCastU8 (128 ||| cp &&& 63)]
  else if cp ≤ 65535 then do
    return out ++ [← intCastU8 (224 ||| cp >>> 12), ← intCastU8 (128 ||| cp >>> 6 &&& 63), ← intCastU8 (128 ||| cp &&& 63)]
  else if cp ≤ 1114111 then do
    return out ++ [← intCastU8 (240 ||| cp >>> 18), ← intCastU8 (128 ||| cp >>> 12 &&& 63),
      ← intCastU8 (128 ||| cp >>> 6 &&& 63), ← intCastU8 (128 ||| cp &&& 63)]
  else fail (.invalidUnicode position)

def parseUnicodeEscape (pos : Nat) (out : StrBuf) (position : Nat) : Outcome (StrBuf × Nat) := do
  let (first, pos) ← parseHex4 input pos false
  if 55296 ≤ first ∧ first ≤ 56319 then
    match input[pos]? with
    | none => fail (.unexpectedEnd input.length)
    | some b =>
      if b.toNat ≠ 92 then fail (.invalidUnicode pos)
      else
        match input[pos + 1]? with
        | none => fail (.unexpectedEnd input.length)
        | some b =>
          if b.toNat ≠ 117 then fail (.invalidUnicode (pos + 1))
          else do
            let (second, pos) ← parseHex4 input (pos + 2) true
            if second < 56320 then .error .trap
            else do
              let cp := 65536 + (first - 55296) * 1024 + (second - 56320)
              return (← pushCodepoint out cp position, pos)
  else return (← pushCodepoint out first position, pos)

def continuation (b : UInt8) : Bool := 128 ≤ b.toNat && b.toNat ≤ 191

/-- The second byte decides overlong forms, surrogates and what is past the last
plane. -/
def boundaryLead (lead current : Nat) : Bool :=
  lead = 224 && current < 160 || lead = 237 && current > 159 || lead = 240 && current < 144 || lead = 244 && current > 143

def checkContinuations (pos lead : Nat) : Nat → Nat → Outcome Unit
  | 0, _ => .ok ()
  | left + 1, i =>
    match input[pos + i]? with
    | none => fail (.unexpectedEnd input.length)
    | some current =>
      if !continuation current then fail (.invalidUnicode (pos + i))
      else if i = 0 ∧ boundaryLead lead current.toNat then fail (.invalidUnicode pos)
      else checkContinuations pos lead left (i + 1)

def copyBytes (out : StrBuf) : Nat → Nat → Outcome (StrBuf × Nat)
  | 0, pos => .ok (out, pos)
  | left + 1, pos =>
    match input[pos]? with
    | none => .error .trap
    | some b => copyBytes (out ++ [b]) left (pos + 1)

def copyUtf8 (pos : Nat) (out : StrBuf) (lead : UInt8) (position : Nat) : Outcome (StrBuf × Nat) :=
  let first := lead.toNat
  let needed :=
    if 194 ≤ first ∧ first ≤ 223 then some 1
    else if 224 ≤ first ∧ first ≤ 239 then some 2
    else if 240 ≤ first ∧ first ≤ 244 then some 3
    else none
  match needed with
  | none => fail (.invalidUnicode position)
  | some needed => do
    checkContinuations input pos first needed 0
    copyBytes input (out ++ [lead]) needed pos

def simpleEscape (e : Nat) : Option UInt8 :=
  if e = 34 ∨ e = 92 ∨ e = 47 then some (UInt8.ofNat e)
  else if e = 98 then some 8
  else if e = 102 then some 12
  else if e = 110 then some 10
  else if e = 114 then some 13
  else if e = 116 then some 9
  else none

/-- The characters up to the closing quote. -/
def parseCharacters : Nat → Nat → StrBuf → Outcome (StrBuf × Nat)
  | 0, _, _ => .error .endless
  | tries + 1, pos, out =>
    match input[pos]? with
    | none => fail (.unexpectedEnd input.length)
    | some b =>
      if b.toNat = 34 then .ok (out, pos + 1)
      else if b.toNat < 32 then fail (.unexpectedByte pos)
      else if 128 ≤ b.toNat then do
        let (out, pos) ← copyUtf8 input (pos + 1) out b pos
        parseCharacters tries pos out
      else if b.toNat ≠ 92 then parseCharacters tries (pos + 1) (out ++ [b])
      else
        match input[pos + 1]? with
        | none => fail (.unexpectedEnd (pos + 1))
        | some e =>
          match simpleEscape e.toNat with
          | some c => parseCharacters tries (pos + 2) (out ++ [c])
          | none =>
            if e.toNat = 117 then do
              let (out, pos) ← parseUnicodeEscape input (pos + 2) out pos
              parseCharacters tries pos out
            else fail (.invalidEscape (pos + 1))

def parseString (pos : Nat) : Outcome (StrBuf × Nat) :=
  match input[pos]? with
  | none => fail (.unexpectedEnd input.length)
  | some b => if b.toNat ≠ 34 then fail (.unexpectedByte pos) else parseCharacters input (input.length + 1) (pos + 1) []

def consumeDigits (pos : Nat) : Nat :=
  if pos < input.length then
    match input[pos]? with
    | some b => if isDigit b then consumeDigits (pos + 1) else pos
    | none => pos
  else pos
termination_by input.length - pos

def parseInteger (pos : Nat) : Outcome Nat :=
  match input[pos]? with
  | none => .error .trap
  | some b =>
    if b.toNat = 48 then
      match input[pos + 1]? with
      | none => .ok (pos + 1)
      | some d => if isDigit d then fail (.invalidNumber (pos + 1)) else .ok (pos + 1)
    else if 49 ≤ b.toNat ∧ b.toNat ≤ 57 then .ok (consumeDigits input pos)
    else fail (.invalidNumber pos)

def parseFraction (pos : Nat) : Outcome Nat :=
  match input[pos]? with
  | none => .ok pos
  | some b =>
    if b.toNat = 46 then
      let fin := consumeDigits input (pos + 1)
      if fin - (pos + 1) = 0 then fail (.invalidNumber fin) else .ok fin
    else .ok pos

def parseExponent (pos : Nat) : Outcome Nat :=
  match input[pos]? with
  | none => .ok pos
  | some e =>
    if e.toNat = 101 ∨ e.toNat = 69 then
      let digits :=
        match input[pos + 1]? with
        | none => pos + 1
        | some sign => if sign.toNat = 43 ∨ sign.toNat = 45 then pos + 2 else pos + 1
      let fin := consumeDigits input digits
      if fin - digits = 0 then fail (.invalidNumber fin) else .ok fin
    else .ok pos

def parseNumber (start : Nat) : Outcome (Json × Nat) :=
  match input[start]? with
  | none => .error .trap
  | some b => do
    let pos := if b.toNat = 45 then start + 1 else start
    if b.toNat = 45 ∧ input.length ≤ pos then fail (.invalidNumber input.length)
    else do
      let pos ← parseInteger input pos
      let pos ← parseFraction input pos
      let pos ← parseExponent input pos
      -- The substring traps when the range is outside the input.
      if start ≤ input.length ∧ pos - start ≤ input.length - start then
        return (.number ((input.drop start).take (pos - start)), pos)
      else .error .trap

mutual

def parseValue : Nat → Nat → Nat → Outcome (Json × Nat)
  | 0, _, _ => .error .endless
  | tries + 1, pos, depth =>
    let pos := skipSpace input pos
    if depth > 256 then fail (.nestingTooDeep pos)
    else
      match input[pos]? with
      | none => fail (.unexpectedEnd pos)
      | some b =>
        if b.toNat = 110 then do return (.null, ← parseLiteral input pos [110, 117, 108, 108])
        else if b.toNat = 116 then do return (.bool true, ← parseLiteral input pos [116, 114, 117, 101])
        else if b.toNat = 102 then do return (.bool false, ← parseLiteral input pos [102, 97, 108, 115, 101])
        else if b.toNat = 34 then do
          let (value, pos) ← parseString input pos
          return (.string value, pos)
        else if b.toNat = 91 then parseArray tries pos depth
        else if b.toNat = 123 then parseObject tries pos depth
        else if b.toNat = 45 ∨ isDigit b then parseNumber input pos
        else fail (.unexpectedByte pos)

def parseArray : Nat → Nat → Nat → Outcome (Json × Nat)
  | 0, _, _ => .error .endless
  | tries + 1, pos, depth =>
    let pos := skipSpace input (pos + 1)
    match input[pos]? with
    | none => parseItems tries pos depth []
    | some b => if b.toNat = 93 then .ok (.array [], pos + 1) else parseItems tries pos depth []

/-- One turn of the loop over the items. -/
def parseItems : Nat → Nat → Nat → List Json → Outcome (Json × Nat)
  | 0, _, _, _ => .error .endless
  | tries + 1, pos, depth, items => do
    let (value, pos) ← parseValue tries pos (depth + 1)
    let items := items ++ [value]
    let pos := skipSpace input pos
    match input[pos]? with
    | none => fail (.unexpectedEnd pos)
    | some delimiter =>
      if delimiter.toNat = 93 then .ok (.array items, pos + 1)
      else if delimiter.toNat ≠ 44 then fail (.unexpectedByte pos)
      else parseItems tries (skipSpace input (pos + 1)) depth items

def parseObject : Nat → Nat → Nat → Outcome (Json × Nat)
  | 0, _, _ => .error .endless
  | tries + 1, pos, depth =>
    let pos := skipSpace input (pos + 1)
    match input[pos]? with
    | none => parseMembers tries pos depth [] []
    | some b => if b.toNat = 125 then .ok (.object [] [], pos + 1) else parseMembers tries pos depth [] []

/-- One turn of the loop over the members. -/
def parseMembers : Nat → Nat → Nat → List StrBuf → List Json → Outcome (Json × Nat)
  | 0, _, _, _, _ => .error .endless
  | tries + 1, pos, depth, keys, values =>
    if input.length ≤ pos then fail (.unexpectedEnd pos)
    else do
      let (key, pos) ← parseString input pos
      let pos := skipSpace input pos
      match input[pos]? with
      | none => fail (.unexpectedEnd pos)
      | some colon =>
        if colon.toNat ≠ 58 then fail (.unexpectedByte pos)
        else do
          let (value, pos) ← parseValue tries (pos + 1) (depth + 1)
          let keys := keys ++ [key]
          let values := values ++ [value]
          let pos := skipSpace input pos
          match input[pos]? with
          | none => fail (.unexpectedEnd pos)
          | some delimiter =>
            if delimiter.toNat = 125 then .ok (.object keys values, pos + 1)
            else if delimiter.toNat ≠ 44 then fail (.unexpectedByte pos)
            else parseMembers tries (skipSpace input (pos + 1)) depth keys values

end

/-- Exactly one value, with space around it. Loops and recursion have no bound in
the source; the tries are there to show that they end. -/
def parse : Outcome Json := do
  let (value, pos) ← parseValue input (3 * input.length + 3) 0 0
  let pos := skipSpace input pos
  if pos ≠ input.length then fail (.trailingCharacters pos) else return value

end

end Rue.Text

/-! The compact spelling of a JSON value. Items are taken from the end of their
buffer and their texts are taken from the end of another. -/

namespace Rue.Text

def hexDigit (value : Nat) : UInt8 := UInt8.ofNat (if value < 10 then 48 + value else 97 + value - 10)

def writeCharacter (b : UInt8) : StrBuf :=
  if b.toNat = 34 then [92, 34]
  else if b.toNat = 92 then [92, 92]
  else if b.toNat = 8 then [92, 98]
  else if b.toNat = 12 then [92, 102]
  else if b.toNat = 10 then [92, 110]
  else if b.toNat = 13 then [92, 114]
  else if b.toNat = 9 then [92, 116]
  else if b.toNat < 32 then [92, 117, 48, 48, hexDigit (b.toNat >>> 4), hexDigit (b.toNat &&& 15)]
  else [b]

def writeString (value : StrBuf) : StrBuf := 34 :: value.flatMap writeCharacter ++ [34]

/-- The rendered texts, taken from the end, with commas between. -/
def joinRendered (rendered : List StrBuf) : StrBuf :=
  (rendered.reverse.foldl (fun (out, first) text => (out ++ (if first then [] else [44]) ++ text, false)) ([], true)).1

/-- Keys and rendered values taken from the end together, until the values are used
up; a key that is missing ends the writing of the object. -/
def renderEntries : List StrBuf → List StrBuf → Option (List StrBuf)
  | _, [] => some []
  | [], _ :: _ => none
  | key :: keys, value :: values => (renderEntries keys values).map ((writeString key ++ 58 :: value) :: ·)

mutual

/-- What is appended to the output for a value. -/
def writeValue : Json → StrBuf
  | .null => [110, 117, 108, 108]
  | .bool value => if value then [116, 114, 117, 101] else [102, 97, 108, 115, 101]
  | .number spelling => spelling
  | .string value => writeString value
  | .array items => 91 :: joinRendered (renderItems items) ++ [93]
  | .object keys values =>
    match renderEntries keys.reverse (renderItems values) with
    | some entries => 123 :: joinRendered entries ++ [125]
    | none => []

/-- The texts of the items, the last item's first. -/
def renderItems : List Json → List StrBuf
  | [] => []
  | item :: rest => renderItems rest ++ [writeValue item]

end

def toString (value : Json) : StrBuf := writeValue value

end Rue.Text
