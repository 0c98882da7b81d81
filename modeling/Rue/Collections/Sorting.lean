import Rue.Collections.ArrayBuf

/-! The sorts over growable buffers. -/

namespace Rue.Collections

/-- A buffer of the program. Its elements are in memory, of which there is less
than 2^63 bytes. -/
structure Buffer (T : Type) where
  items : List T
  addressable : items.length < 2 ^ 63

namespace Sorting

variable {T C : Type}

/-- An element that the caller takes to be in bounds. -/
def elementAt (xs : List T) (i : Nat) : Except Stop T :=
  match xs[i]? with
  | some v => .ok v
  | none => .error .outOfBounds

def lessAt (less : T → T → Bool) (xs : List T) (i j : Nat) : Except Stop Bool := do
  return less (← elementAt xs i) (← elementAt xs j)

/-- The element of a place goes left past the ones it precedes. -/
def sink (less : T → T → Bool) : (place : Nat) → List T → Except Stop (List T)
  | 0, xs => .ok xs
  | j + 1, xs => do
    let prev ← elementAt xs j
    let cur ← elementAt xs (j + 1)
    if less cur prev then sink less j (← ArrayBuf.swap xs j (j + 1)) else return xs

def insertionSortWith (less : T → T → Bool) (xs : List T) : Except Stop (List T) :=
  (List.range' 1 (xs.length - 1)).foldlM (fun xs i => sink less i xs) xs

def insertionSort (lt : T → T → Bool) (xs : Buffer T) : Except Stop (List T) := insertionSortWith lt xs.items

def insertionSortBy (ctx : C) (less : C → T → T → Bool) (xs : Buffer T) : Except Stop (List T) :=
  insertionSortWith (less ctx) xs.items

/-! Quicksort. The variants differ in when they read the elements they compare. -/

structure Reading (T : Type) where
  median : List T → Nat → Nat → Nat → Except Stop Nat
  -- The comparison with a pivot, made before the pass that uses it.
  against : List T → Nat → Except Stop (List T → Nat → Except Stop Bool)

def medianOfThree (lt : T → T → Bool) (xs : List T) (a b c : Nat) : Except Stop Nat := do
  let va ← elementAt xs a
  let vb ← elementAt xs b
  let vc ← elementAt xs c
  return if lt va vb then if lt vb vc then b else if lt va vc then c else a
    else if lt va vc then a
    else if lt vb vc then c
    else b

def medianOfThreeBy (less : T → T → Bool) (xs : List T) (a b c : Nat) : Except Stop Nat := do
  if ← lessAt less xs a b then
    if ← lessAt less xs b c then return b else if ← lessAt less xs a c then return c else return a
  else if ← lessAt less xs a c then return a
  else if ← lessAt less xs b c then return c
  else return b

def reading (lt : T → T → Bool) : Reading T where
  median := medianOfThree lt
  against xs hi := do
    let pivot ← elementAt xs hi
    return fun xs j => do return lt (← elementAt xs j) pivot

/-- Every comparison reads both of its places. -/
def readingBy (less : T → T → Bool) : Reading T where
  median := medianOfThreeBy less
  against _ hi := .ok fun xs j => lessAt less xs j hi

/-- The elements before the pivot come first; the number is where the others begin. -/
def partition (test : List T → Nat → Except Stop Bool) (lo hi : Nat) (xs : List T) : Except Stop (List T × Nat) :=
  (List.range' lo (hi - lo)).foldlM
    (fun state j => do
      if ← test state.1 j then return (← ArrayBuf.swap state.1 state.2 j, state.2 + 1) else return state)
    (xs, lo)

/-- A side of more than one element is worth a call. -/
def nested (len : Nat) (xs : List T) (call : Except Stop (List T × Nat)) : Except Stop (List T × Nat) :=
  if len > 1 then do
    let (xs, depth) ← call
    return (xs, depth + 1)
  else .ok (xs, 0)

/-- An inclusive range sorted, and how many calls deep that went below this one.
The shorter side is a call of its own, the longer one another turn of the loop. -/
def qsortRange (reading : Reading T) : (fuel : Nat) → List T → Nat → Nat → Except Stop (List T × Nat)
  | 0, _, _, _ => .error .endless
  | fuel + 1, xs, lo, hi =>
    if lo < hi then do
      let mid ← U64.add lo ((← U64.sub hi lo) / 2)
      let pivotIndex ← reading.median xs lo mid hi
      let xs ← ArrayBuf.swap xs pivotIndex hi
      let test ← reading.against xs hi
      let (xs, store) ← partition test lo hi xs
      let xs ← ArrayBuf.swap xs store hi
      let leftLen ← U64.sub store lo
      let rightLen ← U64.sub hi store
      if leftLen < rightLen then
        let (xs, depth) ← nested leftLen xs do qsortRange reading fuel xs lo (← U64.sub store 1)
        if store = hi then return (xs, depth)
        else
          let (xs, rest) ← qsortRange reading fuel xs (← U64.add store 1) hi
          return (xs, max depth rest)
      else
        let (xs, depth) ← nested rightLen xs do qsortRange reading fuel xs (← U64.add store 1) hi
        if store = lo then return (xs, depth)
        else
          let (xs, rest) ← qsortRange reading fuel xs lo (← U64.sub store 1)
          return (xs, max depth rest)
    else .ok (xs, 0)

/-- What the quicksorts share; the depth counts the calls of the recursive function. -/
def quicksortWith (reading : Reading T) (xs : List T) : Except Stop (List T × Nat) :=
  let n := xs.length
  if n > 1 then do
    let (xs, depth) ← qsortRange reading n xs 0 (← U64.sub n 1)
    return (xs, depth + 1)
  else .ok (xs, 0)

def quicksort (lt : T → T → Bool) (xs : Buffer T) : Except Stop (List T × Nat) := quicksortWith (reading lt) xs.items

def sortBy (ctx : C) (less : C → T → T → Bool) (xs : Buffer T) : Except Stop (List T × Nat) :=
  quicksortWith (readingBy (less ctx)) xs.items

def sortByOrder (less : T → T → Bool) (xs : Buffer T) : Except Stop (List T × Nat) := quicksortWith (readingBy less) xs.items

/-- Two runs merged until one is used up. -/
def mergeRuns (less : T → T → Bool) (xs : List T) (mid hi : Nat) :
    (fuel : Nat) → Nat → Nat → List T → Except Stop (Nat × Nat × List T)
  | 0, _, _, _ => .error .endless
  | fuel + 1, i, j, tmp =>
    if i < mid ∧ j < hi then do
      let a ← elementAt xs i
      let b ← elementAt xs j
      if less b a then mergeRuns less xs mid hi fuel i (j + 1) (tmp ++ [b])
      else mergeRuns less xs mid hi fuel (i + 1) j (tmp ++ [a])
    else .ok (i, j, tmp)

def copyRun (xs : List T) (i stop : Nat) (tmp : List T) : Except Stop (List T) :=
  (List.range' i (stop - i)).foldlM (fun tmp k => do return tmp ++ [← elementAt xs k]) tmp

/-- The runs of a width merged pairwise, from a place on. -/
def mergePass (less : T → T → Bool) (xs : List T) (width : Nat) : (fuel : Nat) → Nat → List T → Except Stop (List T)
  | 0, _, _ => .error .endless
  | fuel + 1, lo, tmp =>
    let n := xs.length
    if lo < n then do
      let near ← U64.add lo width
      let mid := if near < n then near else n
      let far ← U64.add lo (← U64.mul 2 width)
      let hi := if far < n then far else n
      let (i, j, tmp) ← mergeRuns less xs mid hi (hi - lo + 1) lo mid tmp
      let tmp ← copyRun xs i mid tmp
      let tmp ← copyRun xs j hi tmp
      mergePass less xs width fuel hi tmp
    else .ok tmp

def copyBack (xs tmp : List T) : Except Stop (List T) :=
  (List.range xs.length).foldlM (fun xs k => do ArrayBuf.set xs k (← elementAt tmp k)) xs

def mergeWidths (less : T → T → Bool) : (fuel : Nat) → Nat → List T → Except Stop (List T)
  | 0, _, _ => .error .endless
  | fuel + 1, width, xs =>
    if width < xs.length then do
      let tmp ← mergePass less xs width (xs.length + 1) 0 []
      let xs ← copyBack xs tmp
      mergeWidths less fuel (← U64.mul width 2) xs
    else .ok xs

/-- The scratch buffer is reserved once, if there is room for it. -/
def mergeSortWith (less : T → T → Bool) (room : Bool) (xs : List T) : Except Stop (List T) :=
  if xs.length < 2 then .ok xs else if room then mergeWidths less (xs.length + 1) 1 xs else .error .outOfMemory

def mergeSort (lt : T → T → Bool) (room : Bool) (xs : Buffer T) : Except Stop (List T) := mergeSortWith lt room xs.items

def mergeSortBy (ctx : C) (less : C → T → T → Bool) (room : Bool) (xs : Buffer T) : Except Stop (List T) :=
  mergeSortWith (less ctx) room xs.items

end Sorting

end Rue.Collections
