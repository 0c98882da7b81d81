import Mathlib.Algebra.Order.Ring.Int
import Rue.Cfg.Operands

/-! A reusable index from the values of a graph to the instructions that use them:
one bucket for each value that occurs as an operand, stamped with the generation
of the refill, and the users of all buckets in one flat list. An access outside a
buffer or a failed assertion gives no result. -/

namespace Rue.Opt

/-- The identity of one physical graph; a clone gets another one. -/
abbrev CfgOwnerIdentity := Nat

structure OwnedCfg where
  graph : Cfg
  ownerIdentity : CfgOwnerIdentity

namespace OwnedCfg

def valueCount (cfg : OwnedCfg) : Nat := cfg.graph.valueCount

def uses (cfg : OwnedCfg) (user : CfgValue) : List CfgValue := cfg.graph.visitInstructionUses user

def typeOf (cfg : OwnedCfg) (value : CfgValue) : Ty := (cfg.graph.inst value).ty

end OwnedCfg

inductive CfgUseIndexError where
  | invalidated
  | wrongOwner
  | valueDomainChanged
  | valueOutOfRange (value : CfgValue)
  | valueTypeChanged (value : CfgValue)
  deriving DecidableEq

structure CfgUseIndex where
  bucketGeneration : List Nat
  bucketIndex : List Nat
  generation : Nat
  keys : List CfgValue
  keyTypes : List Ty
  offsets : List Nat
  users : List CfgValue
  cursors : List Nat
  valueCount : Nat
  owner : Option CfgOwnerIdentity

namespace CfgUseIndex

def default : CfgUseIndex := ⟨[], [], 0, [], [], [], [], [], 0, none⟩

def invalidate (index : CfgUseIndex) : CfgUseIndex := { index with owner := none }

/-- `Vec::resize` to a longer length. -/
def grow (buffer : List Nat) (length : Nat) : List Nat := buffer ++ List.replicate (length - buffer.length) 0

/-- Buckets for every value of the domain. -/
def makeRoom (index : CfgUseIndex) (valueCount : Nat) : CfgUseIndex :=
  if index.bucketGeneration.length < valueCount then
    { index with
      bucketGeneration := grow index.bucketGeneration valueCount
      bucketIndex := grow index.bucketIndex valueCount }
  else index

/-- The next generation; when the counter wraps, every old stamp is cleared. -/
def nextGeneration (index : CfgUseIndex) : CfgUseIndex :=
  let generation := (index.generation + 1) % 2 ^ 64
  if generation = 0 then
    { index with bucketGeneration := index.bucketGeneration.map fun _ => 0, generation := 1 }
  else { index with generation }

def clear (index : CfgUseIndex) : CfgUseIndex :=
  { index with keys := [], keyTypes := [], offsets := [], cursors := [], users := [] }

/-- A bucket for an operand seen for the first time. -/
def openBucket (cfg : OwnedCfg) (index : CfgUseIndex) (operand : CfgValue) : Option CfgUseIndex := do
  let stamp ← index.bucketGeneration[operand]?
  if stamp = index.generation then return index
  let _ ← index.bucketIndex[operand]?
  return { index with
    bucketGeneration := index.bucketGeneration.set operand index.generation
    bucketIndex := index.bucketIndex.set operand index.keys.length
    keys := index.keys ++ [operand]
    keyTypes := index.keyTypes ++ [cfg.typeOf operand]
    offsets := index.offsets ++ [0] }

def countOperand (cfg : OwnedCfg) (state : CfgUseIndex × Option CfgValue) (operand : CfgValue) :
    Option (CfgUseIndex × Option CfgValue) :=
  if cfg.valueCount ≤ operand then some (state.1, some operand)
  else do
    let index ← openBucket cfg state.1 operand
    let bucket ← index.bucketIndex[operand]?
    let count ← index.offsets[bucket]?
    return ({ index with offsets := index.offsets.set bucket (count + 1) }, state.2)

/-- Counts the operands of each user, up to the first that is no value of the graph. -/
def countUsers (cfg : OwnedCfg) (index : CfgUseIndex) : List CfgValue → Option (Except CfgUseIndexError Unit × CfgUseIndex)
  | [] => some (.ok (), index)
  | user :: rest =>
    if cfg.valueCount ≤ user then some (.error (.valueOutOfRange user), index)
    else do
      let (counted, invalid) ← (cfg.uses user).foldlM (countOperand cfg) (index, none)
      match invalid with
      | some operand => return (.error (.valueOutOfRange operand), counted)
      | none => countUsers cfg counted rest

/-- Each count becomes the total before it. -/
def exclusiveSums (total : Nat) : List Nat → List Nat × Nat
  | [] => ([], total)
  | count :: rest => (total :: (exclusiveSums (total + count) rest).1, (exclusiveSums (total + count) rest).2)

def layOut (index : CfgUseIndex) : CfgUseIndex :=
  let (starts, total) := exclusiveSums 0 index.offsets
  { index with
    offsets := starts ++ [total]
    cursors := (starts ++ [total]).take index.keys.length
    users := List.replicate total 0 }

def fillOperand (user : CfgValue) (index : CfgUseIndex) (operand : CfgValue) : Option CfgUseIndex := do
  let bucket ← index.bucketIndex[operand]?
  let cursor ← index.cursors[bucket]?
  let _ ← index.users[cursor]?
  return { index with users := index.users.set cursor user, cursors := index.cursors.set bucket (cursor + 1) }

def fillUser (cfg : OwnedCfg) (index : CfgUseIndex) (user : CfgValue) : Option CfgUseIndex :=
  (cfg.uses user).foldlM (fillOperand user) index

def rebuild (index : CfgUseIndex) (cfg : OwnedCfg) (userOrder : List CfgValue) :
    Option (Except CfgUseIndexError Unit × CfgUseIndex) := do
  let fresh := ((index.invalidate.makeRoom cfg.valueCount).nextGeneration).clear
  let (result, counted) ← countUsers cfg fresh userOrder
  match result with
  | .error error => return (.error error, counted)
  | .ok () =>
    let filled ← userOrder.foldlM (fillUser cfg) counted.layOut
    return (.ok (), { filled with valueCount := cfg.valueCount, owner := some cfg.ownerIdentity })

/-- The users of a value, after owner, domain and type are checked. -/
def usersOf (index : CfgUseIndex) (cfg : OwnedCfg) (value : CfgValue) : Option (Except CfgUseIndexError (List CfgValue)) :=
  match index.owner with
  | none => some (.error .invalidated)
  | some owner =>
    if owner ≠ cfg.ownerIdentity then some (.error .wrongOwner)
    else if cfg.valueCount ≠ index.valueCount then some (.error .valueDomainChanged)
    else if index.valueCount ≤ value then some (.error (.valueOutOfRange value))
    else do
      let stamp ← index.bucketGeneration[value]?
      if stamp ≠ index.generation then return .ok []
      let bucket ← index.bucketIndex[value]?
      let key ← index.keys[bucket]?
      if key ≠ value then none
      let indexedType ← index.keyTypes[bucket]?
      if cfg.typeOf value ≠ indexedType then return .error (.valueTypeChanged value)
      let start ← index.offsets[bucket]?
      let stop ← index.offsets[bucket + 1]?
      if index.users.length < stop ∨ stop < start then none
      return .ok ((index.users.take stop).drop start)

end CfgUseIndex

end Rue.Opt
