import Rue.Runtime.Integers

/-! Scalars of a byte string one at a time, strictly and lossily. -/

namespace Rue.Runtime.Characters

/-- One lead byte's row of the table of well-formed sequences; every row is at
least two bytes wide. -/
structure Utf8Lead where
  width : Nat
  firstContinuationMin : Nat
  firstContinuationMax : Nat
  scalarBits : Nat

def lead (byte : UInt8) : Option Utf8Lead :=
  let b := byte.toNat
  let row (width low high : Nat) : Option Utf8Lead := some
    { width := width, firstContinuationMin := low, firstContinuationMax := high, scalarBits := b &&& (0x7F >>> width) }
  if 0xC2 ≤ b ∧ b ≤ 0xDF then row 2 0x80 0xBF
  else if b = 0xE0 then row 3 0xA0 0xBF
  else if 0xE1 ≤ b ∧ b ≤ 0xEC then row 3 0x80 0xBF
  else if b = 0xED then row 3 0x80 0x9F
  else if 0xEE ≤ b ∧ b ≤ 0xEF then row 3 0x80 0xBF
  else if b = 0xF0 then row 4 0x90 0xBF
  else if 0xF1 ≤ b ∧ b ≤ 0xF3 then row 4 0x80 0xBF
  else if b = 0xF4 then row 4 0x80 0x8F
  else none

def Utf8Lead.acceptsFirstContinuation (row : Utf8Lead) (byte : UInt8) : Bool :=
  row.firstContinuationMin ≤ byte.toNat && byte.toNat ≤ row.firstContinuationMax

def isContinuation (byte : UInt8) : Bool := byte.toNat &&& 0xC0 = 0x80

def byteAt (bytes : List UInt8) (i : Nat) : Except Trap UInt8 :=
  match bytes[i]? with
  | some b => .ok b
  | none => .error .outOfBounds

/-- The bits of a continuation byte behind those of a scalar. -/
def extend (cp : Nat) (b : UInt8) : Nat := (cp <<< 6) ||| (b.toNat &&& 0x3F)

/-- The continuations from number `k` on, of which some are left to read. -/
def strictTail (bytes : List UInt8) (i width : Nat) : (left k cp : Nat) → Except Trap (Nat × Nat)
  | 0, _, cp => .ok (cp, width)
  | left + 1, k, cp => do
    let b ← byteAt bytes (i + k)
    if !isContinuation b then .error .invalidUtf8 else strictTail bytes i width left (k + 1) (extend cp b)

/-- The scalar at a place and its width. -/
def decodeUtf8At (bytes : List UInt8) (i : Nat) : Except Trap (Nat × Nat) :=
  if i ≥ bytes.length then .error .invalidUtf8
  else do
    let b0 ← byteAt bytes i
    if b0.toNat < 0x80 then return (b0.toNat, 1)
    else
      match lead b0 with
      | none => .error .invalidUtf8
      | some row =>
        if i + row.width > bytes.length then .error .invalidUtf8
        else
          let b1 ← byteAt bytes (i + 1)
          if !row.acceptsFirstContinuation b1 then .error .invalidUtf8
          else strictTail bytes i row.width (row.width - 2) 2 (extend row.scalarBits b1)

def fffd : Nat := 0xFFFD

def lossyTail (bytes : List UInt8) (i width : Nat) : (left consumed cp : Nat) → Except Trap (Nat × Nat)
  | 0, _, cp => .ok (cp, width)
  | left + 1, consumed, cp =>
    if i + consumed ≥ bytes.length then .ok (fffd, consumed)
    else do
      let b ← byteAt bytes (i + consumed)
      if !isContinuation b then return (fffd, consumed) else lossyTail bytes i width left (consumed + 1) (extend cp b)

/-- A sequence that is no scalar is replaced as far as it could have begun one. -/
def decodeUtf8LossyAt (bytes : List UInt8) (i : Nat) : Except Trap (Nat × Nat) :=
  if i ≥ bytes.length then .ok (fffd, 1)
  else do
    let b0 ← byteAt bytes i
    if b0.toNat < 0x80 then return (b0.toNat, 1)
    else
      match lead b0 with
      | none => return (fffd, 1)
      | some row =>
        if i + 1 ≥ bytes.length then return (fffd, 1)
        else
          let b1 ← byteAt bytes (i + 1)
          if !row.acceptsFirstContinuation b1 then return (fffd, 1)
          else lossyTail bytes i row.width (row.width - 2) 2 (extend row.scalarBits b1)

def strCharScalar (bytes : List UInt8) (offset : Nat) : Except Trap Nat := do
  let (scalar, _) ← decodeUtf8At bytes offset
  return scalar

def strCharNext (bytes : List UInt8) (offset : Nat) : Except Trap Nat := do
  let (_, width) ← decodeUtf8At bytes offset
  return offset + width

def strCharScalarLossy (bytes : List UInt8) (offset : Nat) : Except Trap Nat := do
  let (scalar, _) ← decodeUtf8LossyAt bytes offset
  return scalar

def strCharNextLossy (bytes : List UInt8) (offset : Nat) : Except Trap Nat := do
  let (_, width) ← decodeUtf8LossyAt bytes offset
  return offset + width

/-! A loop over the scalars, while the offset is below the length. -/

structure Turn where
  offset : Nat
  next : Nat
  scalar : Nat
  deriving DecidableEq

/-- The turns that were made, where the loop left, and the trap it left by. -/
structure Walk where
  turns : List Turn
  stop : Nat
  trap : Option Trap
  deriving DecidableEq

def walk (scalar next : List UInt8 → Nat → Except Trap Nat) (bytes : List UInt8) : (fuel : Nat) → (offset : Nat) → Walk
  | 0, offset => { turns := [], stop := offset, trap := some .endless }
  | fuel + 1, offset =>
    if offset < bytes.length then
      match scalar bytes offset with
      | .error trap => { turns := [], stop := offset, trap := some trap }
      | .ok c =>
        match next bytes offset with
        | .error trap => { turns := [], stop := offset, trap := some trap }
        | .ok after =>
          let rest := walk scalar next bytes fuel after
          { rest with turns := { offset := offset, next := after, scalar := c } :: rest.turns }
    else { turns := [], stop := offset, trap := none }

/-- The loop of `chars`. -/
def chars (bytes : List UInt8) : Walk := walk strCharScalar strCharNext bytes (bytes.length + 1) 0

/-- The loop of `chars_lossy`. -/
def charsLossy (bytes : List UInt8) : Walk := walk strCharScalarLossy strCharNextLossy bytes (bytes.length + 1) 0

end Rue.Runtime.Characters
