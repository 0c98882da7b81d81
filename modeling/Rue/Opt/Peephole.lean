import Rue.Cfg.Semantics
import Rue.Lib.Chains

/-! Peephole simplification: unsigned division by a power of two becomes a shift
or a mask, and the uses of an operation that returns an operand become uses of
the operand. -/

namespace Rue.Peephole

structure Stats where
  divmodsReduced : Nat
  identitiesRewired : Nat
  deriving DecidableEq

/-- One of the unsigned integer types; no other type that lacks a sign. -/
def isUnsigned : Ty → Bool
  | .u8 | .u16 | .u32 | .u64 => true
  | _ => false

def constInt (cfg : Cfg) (value : CfgValue) : Option (BitVec 64) :=
  match (cfg.inst value).data with
  | .const image => some image
  | _ => none

def isPowerOfTwo (d : BitVec 64) : Bool := (List.range 64).countP (d.getLsbD ·) = 1

def trailingZeros (d : BitVec 64) : Nat := ((List.range 64).find? (d.getLsbD ·)).getD 64

structure Reduction where
  op : BinaryOp
  numerator : CfgValue
  amount : BitVec 64
  deriving DecidableEq

def reduceBy (d : BitVec 64) (numerator : CfgValue) (isDiv : Bool) : Option Reduction :=
  if d < 2 || !isPowerOfTwo d then none
  else if isDiv then some ⟨.shr, numerator, BitVec.ofNat 64 (trailingZeros d)⟩
  else some ⟨.bitAnd, numerator, d - 1⟩

/-- What replaces a division by a constant power of two. Dividing by one is an
identity. -/
def reduction (cfg : Cfg) (value : CfgValue) : Option Reduction :=
  if isUnsigned (cfg.inst value).ty then
    match (cfg.inst value).data with
    | .binary .div numerator divisor => (constInt cfg divisor).bind fun d => reduceBy d numerator true
    | .binary .mod numerator divisor => (constInt cfg divisor).bind fun d => reduceBy d numerator false
    | _ => none
  else none

/-- The graph, with the constants to insert and where in the block. -/
abbrev Insertions := List (Nat × CfgValue)

def reduceValue (state : Cfg × Insertions) (position : CfgValue × Nat) : Cfg × Insertions :=
  match reduction state.1 position.1 with
  | some found =>
    let (cfg, amount) := state.1.addInst ⟨.const found.amount, (state.1.inst position.1).ty⟩
    (cfg.setInstData position.1 (.binary found.op found.numerator amount), state.2 ++ [(position.2, amount)])
  | none => state

/-- Inserted from the last to the first, so that earlier positions stay. -/
def insertAll (insertions : Insertions) (insts : List CfgValue) : List CfgValue :=
  insertions.foldr (fun insertion insts => insts.insertIdx insertion.1 insertion.2) insts

def reduceBlock (state : Cfg × Nat) (block : BlockId) : Cfg × Nat :=
  let (cfg, insertions) := (state.1.block block).insts.zipIdx.foldl reduceValue (state.1, [])
  (cfg.setInsts block (insertAll insertions (cfg.block block).insts), state.2 + insertions.length)

/-- The graph, and how many divisions were replaced. -/
def reduceUnsignedDivMod (cfg : Cfg) : Cfg × Nat := (List.range cfg.blockCount).foldl reduceBlock (cfg, 0)

/-- The operand that an operation which cannot trap returns unchanged. -/
def identityTarget (cfg : Cfg) (value : CfgValue) : Option CfgValue :=
  let is0 (v : CfgValue) : Bool := constInt cfg v = some 0
  let is1 (v : CfgValue) : Bool := constInt cfg v = some 1
  if (cfg.inst value).ty.isFloat then none
  else match (cfg.inst value).data with
  | .binary .add a b => if is0 b then some a else if is0 a then some b else none
  | .binary .sub a b => if is0 b then some a else none
  | .binary .mul a b => if is1 b then some a else if is1 a then some b else none
  | .binary .wrappingAdd a b => if is0 b then some a else if is0 a then some b else none
  | .binary .wrappingSub a b => if is0 b then some a else none
  | .binary .wrappingMul a b => if is1 b then some a else if is1 a then some b else none
  | .binary .div a b => if is1 b then some a else none
  | .binary .bitOr a b => if is0 b then some a else if is0 a then some b else if a = b then some a else none
  | .binary .bitXor a b => if is0 b then some a else if is0 a then some b else none
  | .binary .bitAnd a b => if a = b then some a else none
  | .binary .shl a b => if is0 b then some a else none
  | .binary .shr a b => if is0 b then some a else none
  | .unary .not a =>
    match (cfg.inst a).data with
    | .unary .not inner => some inner
    | _ => none
  | _ => none

def aliasOf (cfg : Cfg) (value : CfgValue) : Option CfgValue :=
  if value < cfg.valueCount then identityTarget cfg value else none

/-- The placeholders, with nothing else changed. -/
def dummyOut (cfg : Cfg) (aliases : CfgValue → Option CfgValue) : Cfg :=
  { cfg with inst := fun value => if (aliases value).isSome then { cfg.inst value with data := .const 0 } else cfg.inst value }

/-- The values that the sweep over all uses maps: boundary values, operands,
operands of terminators. -/
def mappedValues (cfg : Cfg) : List CfgValue :=
  (List.range cfg.valueCount).filter cfg.isOwnershipBoundaryValue ++
    (List.range cfg.valueCount).flatMap (fun value => (cfg.inst value).data.uses) ++
      (List.range cfg.blockCount).flatMap fun block => (cfg.block block).terminator.uses

/-- There is no result where the loop that follows a chain does not end; it has more
turns than there are values. -/
def rewireIdentities (cfg : Cfg) : Option (Cfg × Nat) :=
  let aliases := aliasOf cfg
  let identities := (List.range cfg.valueCount).filter fun value => (aliases value).isSome
  if identities.isEmpty then some (cfg, 0)
  else
    let dummied := dummyOut cfg aliases
    let resolve := Lib.Chains.follow aliases (cfg.valueCount + 1)
    if (mappedValues dummied).all fun value => (resolve value).isSome then
      some (dummied.rewriteValueUses fun value => (resolve value).getD value, identities.length)
    else none

def run (cfg : Cfg) : Option (Cfg × Stats) :=
  let (reduced, count) := reduceUnsignedDivMod cfg
  (rewireIdentities reduced).map fun (after, rewired) => (after, ⟨count, rewired⟩)

end Rue.Peephole
