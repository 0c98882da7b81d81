import Rue.Collections.ArrayBuf

/-! The double-ended queue: a ring in a buffer that is full to its capacity. -/

namespace Rue.Collections

structure Deque (T : Type) where
  buf : List T
  head : Nat
  count : Nat
  cap : Nat
  filler : T
  -- How often memory was asked for so far.
  asked : Nat

namespace Deque

variable {T : Type}

/-- The slot some places after the front. -/
def slot (deque : Deque T) (i : Nat) : Except Stop Nat := do U64.rem (← U64.add deque.head i) deque.cap

section

-- The allocator's answer to each request.
variable (room : Nat → Bool)

/-- The elements computed for the places from 0 on, pushed in turn. -/
def pushEach (element : Nat → Except Stop T) (rounds : Nat) (start : List T × Nat) : Except Stop (List T × Nat) :=
  (List.range rounds).foldlM (fun state i => do ArrayBuf.push room state.1 state.2 (← element i)) start

def growTo (deque : Deque T) (newCap : Nat) : Except Stop (Deque T) := do
  let live ← pushEach room (fun i => do return ArrayBuf.getOr deque.buf (← deque.slot i) deque.filler) deque.count
    ([], deque.asked)
  let (buf, asked) ← pushEach room (fun _ => .ok deque.filler) (newCap - live.1.length) live
  return { deque with buf, head := 0, cap := newCap, asked }

def new (filler : T) : Except Stop (Deque T) := growTo room { buf := [], head := 0, count := 0, cap := 0, filler, asked := 0 } 8

def len (deque : Deque T) : Nat := deque.count

def ensureRoom (deque : Deque T) : Except Stop (Deque T) :=
  if deque.count = deque.cap then if deque.cap > 2 ^ 63 - 1 then .error .outOfMemory else deque.growTo room (deque.cap * 2)
  else .ok deque

def pushBack (deque : Deque T) (x : T) : Except Stop (Deque T) := do
  let deque ← deque.ensureRoom room
  let buf ← ArrayBuf.set deque.buf (← deque.slot deque.count) x
  return { deque with buf, count := ← U64.add deque.count 1 }

def pushFront (deque : Deque T) (x : T) : Except Stop (Deque T) := do
  let deque ← deque.ensureRoom room
  let head ← U64.rem (← U64.sub (← U64.add deque.head deque.cap) 1) deque.cap
  let buf ← ArrayBuf.set deque.buf head x
  return { deque with buf, head, count := ← U64.add deque.count 1 }

end

def popFront (deque : Deque T) : Except Stop (Option T × Deque T) := do
  if deque.count = 0 then return (none, deque)
  else
    let v := ArrayBuf.getOr deque.buf deque.head deque.filler
    return (some v, { deque with head := ← deque.slot 1, count := ← U64.sub deque.count 1 })

def popBack (deque : Deque T) : Except Stop (Option T × Deque T) := do
  if deque.count = 0 then return (none, deque)
  else
    let deque := { deque with count := ← U64.sub deque.count 1 }
    return (some (ArrayBuf.getOr deque.buf (← deque.slot deque.count) deque.filler), deque)

def front (deque : Deque T) : Option T :=
  if deque.count = 0 then none else some (ArrayBuf.getOr deque.buf deque.head deque.filler)

def back (deque : Deque T) : Except Stop (Option T) := do
  if deque.count = 0 then return none
  else
    let idx ← U64.rem (← U64.sub (← U64.add deque.head deque.count) 1) deque.cap
    return some (ArrayBuf.getOr deque.buf idx deque.filler)

end Deque

inductive DequeCall (T : Type) where
  | pushBack (x : T)
  | pushFront (x : T)
  | popFront
  | popBack
  | front
  | back
  | len

inductive DequeAnswer (T : Type) where
  | done
  | found (x : Option T)
  | length (count : Nat)
  deriving DecidableEq

/-- What a double-ended queue is for. -/
def Sequence.answer {T : Type} (items : List T) : DequeCall T → DequeAnswer T × List T
  | .pushBack x => (.done, items ++ [x])
  | .pushFront x => (.done, x :: items)
  | .popFront => (.found items.head?, items.tail)
  | .popBack => (.found items.getLast?, items.dropLast)
  | .front => (.found items.head?, items)
  | .back => (.found items.getLast?, items)
  | .len => (.length items.length, items)

def Deque.perform {T : Type} (room : Nat → Bool) (deque : Deque T) : DequeCall T → Except Stop (DequeAnswer T × Deque T)
  | .pushBack x => do return (.done, ← deque.pushBack room x)
  | .pushFront x => do return (.done, ← deque.pushFront room x)
  | .popFront => do
    let (x, deque) ← deque.popFront
    return (.found x, deque)
  | .popBack => do
    let (x, deque) ← deque.popBack
    return (.found x, deque)
  | .front => .ok (.found deque.front, deque)
  | .back => do return (.found (← deque.back), deque)
  | .len => .ok (.length deque.len, deque)

end Rue.Collections
