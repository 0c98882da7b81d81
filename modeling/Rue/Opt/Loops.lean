import Rue.Cfg.Verified
import Rue.Lib.DepthFirst

/-! Natural loops: a search that turns down cycles with more than one entry, then
the back edges grouped by header, the bodies, and the loop around each. -/

namespace Rue.Loops

abbrev LoopId := Nat

structure NaturalLoop where
  header : BlockId
  latches : List BlockId
  body : List BlockId
  parent : Option LoopId
  exits : List (BlockId × BlockId)

structure LoopForest where
  loops : List NaturalLoop
  irreducible : Bool

structure Scan where
  visited : BlockId → Bool
  onStack : BlockId → Bool
  irreducible : Bool
  stack : List (BlockId × Nat)

section

variable (cfg : Cfg) (dom : DominatorTree)

def Scan.start : Scan where
  visited := Function.update (fun _ => false) cfg.entry true
  onStack := Function.update (fun _ => false) cfg.entry true
  irreducible := false
  stack := [(cfg.entry, 0)]

/-- Look at the next successor of the block on top, or leave the block. -/
def Scan.turn (scan : Scan) : Scan :=
  match scan.stack with
  | [] => scan
  | (block, idx) :: below =>
    match (cfg.succs block)[idx]? with
    | some s =>
      if scan.onStack s then
        { scan with stack := (block, idx + 1) :: below, irreducible := scan.irreducible || !dom.dominates s block }
      else if !scan.visited s then
        { scan with
          visited := Function.update scan.visited s true
          onStack := Function.update scan.onStack s true
          stack := (s, 0) :: (block, idx + 1) :: below }
      else { scan with stack := (block, idx + 1) :: below }
    | none => { scan with onStack := Function.update scan.onStack block false, stack := below }

/-- The loop runs until the stack is empty; that many turns are enough. -/
def scan : Scan :=
  if cfg.entry < cfg.blockCount then (Scan.turn cfg dom)^[Lib.DepthFirst.turns cfg.succs cfg.blockCount] (Scan.start cfg)
  else ⟨fun _ => false, fun _ => false, false, []⟩

/-- The edges from a visited block to a dominator of it, by source. -/
def backEdges (visited : BlockId → Bool) : List (BlockId × BlockId) :=
  ((List.range cfg.blockCount).filter visited).flatMap fun u =>
    ((cfg.succs u).filter fun s => dom.dominates s u).map fun s => (u, s)

/-- A latch into the slot of its header, which is made if it is the first. -/
def addLatch (groups : List (BlockId × List BlockId)) (edge : BlockId × BlockId) : List (BlockId × List BlockId) :=
  match groups.findIdx? fun group => group.1 = edge.2 with
  | some slot =>
    groups.modify slot fun group => (group.1, if group.2.getLast? = some edge.1 then group.2 else group.2 ++ [edge.1])
  | none => groups ++ [(edge.2, [edge.1])]

/-- Backwards from the latches, never out of the header. -/
def gatherBody (header : BlockId) (latches : List BlockId) : List BlockId :=
  let start := latches.foldl Lib.Search.push ([header], [])
  ((Lib.Search.pushStep cfg.preds)^[cfg.blockCount] start).1.mergeSort (· ≤ ·)

def naturalLoop (group : BlockId × List BlockId) : NaturalLoop :=
  let latches := group.2.mergeSort (· ≤ ·)
  let body := gatherBody cfg group.1 latches
  { header := group.1
    latches := latches
    body := body
    parent := none
    exits := body.flatMap fun b => ((cfg.succs b).filter fun s => s ∉ body).map fun s => (b, s) }

end

section

variable (loops : List NaturalLoop)

def bodyOf (id : LoopId) : List BlockId := (loops[id]?.map NaturalLoop.body).getD []

def loopByHeader : BlockId → Option LoopId :=
  loops.zipIdx.foldl (fun slots (lp, id) => Function.update slots lp.header (some id)) fun _ => none

def byBodySize : List LoopId :=
  (List.range loops.length).mergeSort fun one other =>
    (bodyOf loops one).length < (bodyOf loops other).length ||
      (bodyOf loops one).length = (bodyOf loops other).length && one ≤ other

/-- A loop whose header is in a larger loop's body gets that loop, unless it has one. -/
def claimInner (outer : LoopId) (parents : LoopId → Option LoopId) (block : BlockId) : LoopId → Option LoopId :=
  match loopByHeader loops block with
  | none => parents
  | some inner =>
    if inner ≠ outer ∧ (bodyOf loops outer).length > (bodyOf loops inner).length ∧ (parents inner).isNone then
      Function.update parents inner (some outer)
    else parents

def parents : LoopId → Option LoopId :=
  (byBodySize loops).foldl (fun parents outer => (bodyOf loops outer).foldl (claimInner loops outer) parents) fun _ => none

def assignLoopParents : List NaturalLoop :=
  loops.zipIdx.map fun (lp, id) => { lp with parent := parents loops id }

end

def loops (cfg : Cfg) (dom : DominatorTree) : LoopForest :=
  let scanned := scan cfg dom
  if scanned.irreducible then ⟨[], true⟩
  else ⟨assignLoopParents (((backEdges cfg dom scanned.visited).foldl addLatch []).map (naturalLoop cfg)), false⟩

end Rue.Loops
