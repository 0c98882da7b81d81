import Rue.Collections.ArrayBuf

/-! The binary heaps: a buffer in which no element precedes its parent. The five
heaps sift alike and differ in how they compare two places. -/

namespace Rue.Collections

structure Heap (T : Type) where
  data : List T
  -- How often memory was asked for so far.
  asked : Nat

/-- How two places of the buffer are compared. -/
abbrev Heap.Comparison (T : Type) : Type := List T → Nat → Nat → Except Stop Bool

namespace Heap

variable {T : Type}

/-- By copies of the elements; no element is before none. -/
def lessCopied (less : T → T → Bool) : Comparison T := fun data i j =>
  match data[i]?, data[j]? with
  | some a, some b => .ok (less a b)
  | _, _ => .ok false

/-- By elements that are read in place. -/
def lessPlaced (less : T → T → Bool) : Comparison T := fun data i j =>
  match data[i]?, data[j]? with
  | some a, some b => .ok (less a b)
  | _, _ => .error .outOfBounds

def new : Heap T := ⟨[], 0⟩

def peek (heap : Heap T) : Option T := heap.data[0]?

section

variable (compare : Comparison T)

/-- The child when it is there and precedes the place chosen so far. -/
def better (data : List T) (child chosen : Nat) : Except Stop Nat :=
  if child < data.length then do return if ← compare data child chosen then child else chosen
  else .ok chosen

/-- The loop ends because it goes down; no fuel left stands for not ending. -/
def siftDown : Nat → List T → Nat → Except Stop (List T)
  | 0, _, _ => .error .endless
  | fuel + 1, data, i => do
    let l ← U64.add (← U64.mul 2 i) 1
    let r ← U64.add (← U64.mul 2 i) 2
    let smallest ← better compare data r (← better compare data l i)
    if smallest = i then return data else siftDown fuel (← ArrayBuf.swap data i smallest) smallest

def siftUp : Nat → List T → Nat → Except Stop (List T)
  | 0, _, _ => .error .endless
  | fuel + 1, data, i =>
    if 0 < i then do
      let parent := (← U64.sub i 1) / 2
      if ← compare data i parent then siftUp fuel (← ArrayBuf.swap data i parent) parent else return data
    else .ok data

/-- `room` answers requests for memory by their number and the length wanted. -/
def push (room : Nat → Nat → Bool) (heap : Heap T) (x : T) : Except Stop (Heap T) := do
  let (data, asked) ← ArrayBuf.push (room · (heap.data.length + 1)) heap.data heap.asked x
  return ⟨← siftUp compare (data.length + 1) data (← U64.sub data.length 1), asked⟩

def pop (heap : Heap T) : Except Stop (Option T × Heap T) := do
  let n := heap.data.length
  if n = 0 then return (none, heap)
  else if n = 1 then return ((ArrayBuf.pop heap.data).1, { heap with data := (ArrayBuf.pop heap.data).2 })
  else
    let (smallest, data) := ArrayBuf.pop (← ArrayBuf.swap heap.data 0 (n - 1))
    return (smallest, { heap with data := ← siftDown compare (n + 1) data 0 })

end

end Heap

inductive HeapCall (T : Type) where
  | push (x : T)
  | pop
  | peek

inductive HeapAnswer (T : Type) where
  | done
  | found (x : Option T)
  deriving DecidableEq

def Heap.perform {T : Type} (compare : Heap.Comparison T) (room : Nat → Nat → Bool) (heap : Heap T) :
    HeapCall T → Except Stop (HeapAnswer T × Heap T)
  | .push x => do return (.done, ← heap.push compare room x)
  | .pop => do
    let (x, heap) ← heap.pop compare
    return (.found x, heap)
  | .peek => .ok (.found heap.peek, heap)

/-! The five heaps. An item of a priority queue is a priority and a payload. -/

def BinaryHeap.perform {T : Type} (lt : T → T → Bool) := Heap.perform (Heap.lessCopied lt)

def PriorityQueue.perform {P V : Type} (lt : P → P → Bool) :=
  Heap.perform (Heap.lessCopied fun a b : P × V => lt a.1 b.1)

def BinaryHeapBy.perform {T C : Type} (ctx : C) (less : C → T → T → Bool) := Heap.perform (Heap.lessCopied (less ctx))

def PriorityQueueBy.perform {P V C : Type} (ctx : C) (less : C → P → P → Bool) :=
  Heap.perform (Heap.lessCopied fun a b : P × V => less ctx a.1 b.1)

def OrderedHeap.perform {T : Type} (less : T → T → Bool) := Heap.perform (Heap.lessPlaced less)

end Rue.Collections
