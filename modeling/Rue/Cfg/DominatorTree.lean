import Rue.Cfg.Verified
import Rue.Lib.Csr
import Rue.Lib.Preorder

/-! Building the dominator tree: the postorder of a search from the entry, sweeps that
intersect the predecessors of each block until nothing changes, and the intervals. -/

namespace Rue

/-- The edges of block `i` lie between `offsets i` and `offsets (i + 1)`. -/
structure Adjacency where
  offsets : Lib.Csr.Table
  targets : List BlockId

namespace Adjacency

def of (adjacency : Adjacency) (block : BlockId) : List BlockId :=
  (adjacency.targets.drop (adjacency.offsets block)).take (adjacency.offsets (block + 1) - adjacency.offsets block)

def successors (cfg : Cfg) (n : Nat) : Adjacency :=
  (List.range n).foldl
    (fun adjacency index =>
      let targets := adjacency.targets ++ cfg.succs index
      { offsets := Function.update adjacency.offsets (index + 1) targets.length, targets })
    { offsets := fun _ => 0, targets := [] }

/-- The values of the edges laid out by their keys. -/
def filed (offsets : Lib.Csr.Table) (edges : List (BlockId × BlockId)) (total : Nat) : Adjacency where
  offsets := offsets
  targets := (List.range total).map (Lib.Csr.fill edges offsets fun _ => 0).2

/-- The same edges the other way, in ascending source order. -/
def reversed (adjacency : Adjacency) (n : Nat) : Adjacency :=
  let offsets := Lib.Csr.prefixSums n (Lib.Csr.counts (adjacency.targets.map fun target => (target, 0)))
  let edges := (List.range n).flatMap fun source => (adjacency.of source).map fun target => (target, source)
  filed offsets edges adjacency.targets.length

end Adjacency

/-- The search in the middle, with the blocks left for good, the last one last. -/
structure Postorder where
  visited : BlockId → Bool
  stack : List (BlockId × Nat)
  postNum : BlockId → Option Nat
  postOrder : List BlockId

namespace Postorder

def start (entry : BlockId) : Postorder where
  visited := Function.update (fun _ => false) entry true
  stack := [(entry, 0)]
  postNum := fun _ => none
  postOrder := []

def turn (succs : Adjacency) (search : Postorder) : Postorder :=
  match search.stack with
  | [] => search
  | (block, idx) :: below =>
    match (succs.of block)[idx]? with
    | some s =>
      if !search.visited s then
        { search with visited := Function.update search.visited s true, stack := (s, 0) :: (block, idx + 1) :: below }
      else { search with stack := (block, idx + 1) :: below }
    | none =>
      { search with
        stack := below
        postNum := Function.update search.postNum block (some search.postOrder.length)
        postOrder := search.postOrder ++ [block] }

/-- The loop runs until the stack is empty; that many turns are enough. -/
def run (cfg : Cfg) (succs : Adjacency) : Postorder :=
  if cfg.entry < cfg.blockCount then (turn succs)^[Lib.DepthFirst.turns succs.of cfg.blockCount] (start cfg.entry)
  else { visited := fun _ => false, stack := [], postNum := fun _ => none, postOrder := [] }

end Postorder

namespace DominatorTree

section

variable (idom : BlockId → Option BlockId) (postNum : BlockId → Option Nat)

/-- One finger up until its number is no smaller than the bound. A missing parent or
number is a panic. -/
def advance : Nat → BlockId → Nat → Option BlockId
  | 0, _, _ => none
  | fuel + 1, finger, bound => do
    let num ← postNum finger
    if num < bound then
      let parent ← idom finger
      advance fuel parent bound
    else some finger

def intersect : Nat → BlockId → BlockId → Option BlockId
  | 0, _, _ => none
  | fuel + 1, a, b =>
    if a = b then some a
    else do
      let pb ← postNum b
      let a ← advance idom postNum fuel a pb
      let pa ← postNum a
      let b ← advance idom postNum fuel b pa
      intersect fuel a b

/-- The intersection of the predecessors that are reached and have a parent. -/
def newIdom (fuel : Nat) (preds : List BlockId) : Option (Option BlockId) :=
  preds.foldlM
    (fun (new : Option BlockId) p =>
      if (postNum p).isNone || (idom p).isNone then some new
      else
        match new with
        | none => some (some p)
        | some cur => (intersect idom postNum fuel p cur).map some)
    none

end

section

variable (entry : BlockId) (postNum : BlockId → Option Nat) (preds : Adjacency) (n : Nat)

def visit (state : (BlockId → Option BlockId) × Bool) (b : BlockId) : Option ((BlockId → Option BlockId) × Bool) :=
  if b = entry then some state
  else
    (newIdom state.1 postNum (2 * n) (preds.of b)).map fun
      | some ni => if state.1 b ≠ some ni then (Function.update state.1 b (some ni), true) else state
      | none => state

/-- Sweeps over the blocks until one changes nothing. -/
def sweeps (rpo : List BlockId) : Nat → (BlockId → Option BlockId) → Option (BlockId → Option BlockId)
  | 0, _ => none
  | fuel + 1, idom => do
    let swept ← rpo.foldlM (visit entry postNum preds n) (idom, false)
    if swept.2 then sweeps rpo fuel swept.1 else some swept.1

end

/-- Each block under its parent; the entry is not its own child. -/
def childEdges (idom : BlockId → Option BlockId) (n : Nat) : List (BlockId × BlockId) :=
  (List.range n).filterMap fun index =>
    match idom index with
    | some parent => if parent ≠ index then some (parent, index) else none
    | none => none

def children (idom : BlockId → Option BlockId) (n : Nat) : Adjacency :=
  let childCounts := Lib.Csr.prefixSums n (Lib.Csr.counts (childEdges idom n))
  Adjacency.filed childCounts (childEdges idom n) (childCounts n)

def preorderIntervals (idom : BlockId → Option BlockId) (entry : BlockId) (n : Nat) : (BlockId → Option Nat) × (BlockId → Nat) :=
  if entry < n then
    let children := (children idom n).of
    let walk := (Lib.Preorder.turn children)^[Lib.DepthFirst.turns children n] (Lib.Preorder.start entry)
    (walk.preNum, walk.subtreeLast)
  else (fun _ => none, fun _ => 0)

/-- No result stands for a panic, or for a loop that does not end. -/
def compute (cfg : Cfg) : Option DominatorTree := do
  let n := cfg.blockCount
  let succs := Adjacency.successors cfg n
  let search := Postorder.run cfg succs
  let seed := if cfg.entry < n then Function.update (fun _ => none) cfg.entry (some cfg.entry) else fun _ => none
  let idom ← sweeps cfg.entry search.postNum (succs.reversed n) n search.postOrder.reverse (n * n + 1) seed
  let (preNum, subtreeLast) := preorderIntervals idom cfg.entry n
  some { idom, postNum := search.postNum, preNum, subtreeLast }

variable (dom : DominatorTree)

def isReachable (block : BlockId) : Bool := (dom.postNum block).isSome

/-- The entry is kept as its own parent, which is not reported. -/
def idomOf (block : BlockId) : Option BlockId :=
  match dom.idom block with
  | some d => if d = block then none else some d
  | none => none

end DominatorTree

end Rue

/-! The order in which a backend lowers blocks: down the dominator tree, the lowest
block that is ready first, and what is not reached at the end. -/

namespace Rue.Cfg

/-- The least index of the heap, which holds them reversed, and the rest. -/
def popReady (ready : List BlockId) : Option (BlockId × List BlockId) := ready.min?.map fun index => (index, ready.erase index)

def dominatorChildren (dominators : DominatorTree) (n : Nat) : BlockId → List BlockId :=
  (List.range n).foldl
    (fun children block =>
      match dominators.idomOf block with
      | some parent => Function.update children parent (children parent ++ [block])
      | none => children)
    fun _ => []

/-- Blocks are taken off the heap until it is empty; no result if that does not end. -/
def drainReady (children : BlockId → List BlockId) : Nat → List BlockId → List BlockId → Option (List BlockId)
  | 0, _, _ => none
  | fuel + 1, ready, order =>
    match popReady ready with
    | none => some order
    | some (index, ready) => drainReady children fuel (children index ++ ready) (order ++ [index])

def blockLoweringOrder (cfg : Cfg) : Option (List BlockId) := do
  let n := cfg.blockCount
  let dominators ← DominatorTree.compute cfg
  let ready := if dominators.isReachable cfg.entry then [cfg.entry] else []
  let order ← drainReady (dominatorChildren dominators n) (n + 1) ready []
  some (order ++ (List.range n).filter fun block => !dominators.isReachable block)

end Rue.Cfg
