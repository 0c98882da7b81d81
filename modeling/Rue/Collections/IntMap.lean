import Rue.Collections.ArrayBuf
import Rue.Lib.Probing

/-! The integer-keyed hash map: parallel arrays with a state for each slot,
linear probing, and tombstones that an insertion can use again. -/

namespace Rue.Collections

abbrev I64 := { k : Int // -2 ^ 63 ≤ k ∧ k < 2 ^ 63 }

def I64.zero : I64 := ⟨0, by decide, by decide⟩

/-- Signed arithmetic traps when its result does not fit. -/
def checkedI64 (value : Int) : Except Stop Int :=
  if -2 ^ 63 ≤ value ∧ value < 2 ^ 63 then .ok value else .error .overflow

def intCastU64 (value : Int) : Except Stop Nat :=
  if 0 ≤ value ∧ value < 2 ^ 64 then .ok value.toNat else .error .overflow

namespace IntMap

inductive SlotState where
  | empty
  | occupied
  | tombstone
  deriving DecidableEq

def keyBits (k : I64) : Except Stop Nat :=
  if 0 ≤ k.val then intCastU64 k.val
  else do
    let next ← checkedI64 (k.val + 1)
    let negated ← checkedI64 (0 - next)
    let magMinus1 ← intCastU64 negated
    return 2 ^ 64 - 1 - magMinus1

def mix (h : Nat) : Nat :=
  let h := h ^^^ (h >>> 33)
  let h := h ^^^ (h >>> 17)
  h ^^^ (h >>> 29)

def hash (k : I64) : Except Stop Nat := do
  let h ← keyBits k
  return mix h

structure Slots (V : Type) where
  keys : List I64
  vals : List V
  states : List SlotState

variable {V : Type}

namespace Slots

def stateAt (slots : Slots V) (idx : Nat) : SlotState := ArrayBuf.getOr slots.states idx .empty

def keyAt (slots : Slots V) (idx : Nat) : I64 := ArrayBuf.getOr slots.keys idx I64.zero

def put (slots : Slots V) (idx : Nat) (k : I64) (v : V) : Except Stop (Slots V) := do
  let keys ← ArrayBuf.set slots.keys idx k
  let vals ← ArrayBuf.set slots.vals idx v
  let states ← ArrayBuf.set slots.states idx .occupied
  return { keys, vals, states }

def fresh (newCap : Nat) (filler : V) : Slots V where
  keys := List.replicate newCap I64.zero
  vals := List.replicate newCap filler
  states := List.replicate newCap .empty

/-- One slot of the old table, moved over if it is occupied. The probing loop is
not bounded in the source; running out of tries stands for not ending. -/
def rehash (newCap : Nat) (filler : V) (old new : Slots V) (j : Nat) : Except Stop (Slots V) :=
  if old.stateAt j = .occupied then do
    let k := old.keyAt j
    let v := ArrayBuf.getOr old.vals j filler
    let h ← hash k
    match Lib.search newCap (fun idx => new.stateAt idx ≠ .occupied) newCap (h % newCap) with
    | none => .error .endless
    | some idx => new.put idx k v
  else .ok new

end Slots

end IntMap

structure IntMap (V : Type) extends IntMap.Slots V where
  count : Nat
  cap : Nat
  filler : V

namespace IntMap

variable {V : Type}

section

-- Whether the buffers of a table of this many slots can be allocated. A table only
-- ever grows, so a run asks this once for each size.
variable (room : Nat → Bool)

def growTo (map : IntMap V) (newCap : Nat) : Except Stop (IntMap V) :=
  if room newCap ∧ ArrayBuf.wordsFit newCap then do
    let slots ← (List.range map.cap).foldlM (Slots.rehash newCap map.filler map.toSlots) (Slots.fresh newCap map.filler)
    return { map with toSlots := slots, cap := newCap }
  else .error .outOfMemory

def new (filler : V) : Except Stop (IntMap V) :=
  growTo room { keys := [], vals := [], states := [], count := 0, cap := 0, filler } 8

def len (map : IntMap V) : Nat := map.count

def slot (map : IntMap V) (k : I64) : Except Stop Nat := do
  let h ← hash k
  return h % map.cap

def place (map : IntMap V) (target : Nat) (k : I64) (v : V) : Except Stop (IntMap V) := do
  let slots ← map.toSlots.put target k v
  return { map with toSlots := slots, count := map.count + 1 }

def insertLoop (map : IntMap V) (k : I64) (v : V) : Nat → Nat → Nat → Except Stop (IntMap V)
  | 0, _, firstTomb => map.place firstTomb k v
  | probes + 1, idx, firstTomb =>
    match map.stateAt idx with
    | .empty => map.place (if firstTomb < map.cap then firstTomb else idx) k v
    | .occupied =>
      if map.keyAt idx = k then do
        let vals ← ArrayBuf.set map.vals idx v
        return { map with vals }
      else insertLoop map k v probes ((idx + 1) % map.cap) firstTomb
    | .tombstone =>
      insertLoop map k v probes ((idx + 1) % map.cap) (if firstTomb ≥ map.cap then idx else firstTomb)

def threshold (cap : Nat) : Nat := cap / 10 * 7 + cap % 10 * 7 / 10

def insert (map : IntMap V) (k : I64) (v : V) : Except Stop (IntMap V) :=
  if map.count = 2 ^ 64 - 1 then .error .outOfMemory
  else do
    let map ←
      if map.count + 1 > threshold map.cap then
        if map.cap > 2 ^ 63 - 1 then .error .outOfMemory else map.growTo room (map.cap * 2)
      else .ok map
    let idx ← map.slot k
    map.insertLoop k v map.cap idx map.cap

def getLoop (map : IntMap V) (k : I64) : Nat → Nat → Option V
  | 0, _ => none
  | probes + 1, idx =>
    match map.stateAt idx with
    | .empty => none
    | .occupied =>
      if map.keyAt idx = k then some (ArrayBuf.getOr map.vals idx map.filler)
      else getLoop map k probes ((idx + 1) % map.cap)
    | .tombstone => getLoop map k probes ((idx + 1) % map.cap)

def get (map : IntMap V) (k : I64) : Except Stop (Option V) := do
  let idx ← map.slot k
  return map.getLoop k map.cap idx

def contains (map : IntMap V) (k : I64) : Except Stop Bool := do
  let found ← map.get k
  return found.isSome

def removeLoop (map : IntMap V) (k : I64) : Nat → Nat → Except Stop (Bool × IntMap V)
  | 0, _ => .ok (false, map)
  | probes + 1, idx =>
    match map.stateAt idx with
    | .empty => .ok (false, map)
    | .occupied =>
      if map.keyAt idx = k then do
        let states ← ArrayBuf.set map.states idx .tombstone
        if map.count = 0 then .error .overflow else return (true, { map with states, count := map.count - 1 })
      else removeLoop map k probes ((idx + 1) % map.cap)
    | .tombstone => removeLoop map k probes ((idx + 1) % map.cap)

def remove (map : IntMap V) (k : I64) : Except Stop (Bool × IntMap V) := do
  let idx ← map.slot k
  map.removeLoop k map.cap idx

end

end IntMap

def IntMap.perform {V : Type} (room : Nat → Bool) (map : IntMap V) : MapCall I64 V → Except Stop (MapAnswer V × IntMap V)
  | .insert k v => do return (.done, ← map.insert room k v)
  | .remove k => do
    let (present, map) ← map.remove k
    return (.flag present, map)
  | .get k => do return (.found (← map.get k), map)
  | .contains k => do return (.flag (← map.contains k), map)
  | .len => return (.length map.len, map)

end Rue.Collections
