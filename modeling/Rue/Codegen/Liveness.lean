import Rue.Codegen.LiveRange
import Rue.Lib.Csr
import Mathlib.Data.List.Sort

/-! Liveness of machine code: divergence marks, the block-granular backward
dataflow, and the live ranges built from its boundary sets. -/

namespace Rue.Codegen.Liveness
open Rue.Lib.Csr

/-- The successor indices of each instruction. -/
abbrev Successors := List (List Nat)

/-- The registers each instruction reads, or the ones it writes. -/
abbrev VRegTable := List (List VReg)

def succs (successors : Successors) (index : Nat) : List Nat := successors[index]?.getD []

def vregs (table : VRegTable) (index : Nat) : List VReg := table[index]?.getD []

/-- Every edge once for each time it is listed, filed under its target. -/
def incomingEdges (successors : List (List Nat × Nat)) : List (Nat × Nat) :=
  successors.flatMap fun (targets, source) => targets.map fun target => (target, source)

structure DivergenceState where
  diverging : Nat → Bool
  unmarked : Table
  worklist : List Nat

namespace DivergenceState

/-- Retire one edge into a marked instruction. The predecessor joins the set
with its last unmarked successor. -/
def retire (state : DivergenceState) (pred : Nat) : DivergenceState :=
  if state.diverging pred then state
  else
    let unmarked := Function.update state.unmarked pred (state.unmarked pred - 1)
    if unmarked pred = 0 then
      { diverging := Function.update state.diverging pred true
        unmarked
        worklist := pred :: state.worklist }
    else { state with unmarked }

/-- Pop marked instructions until none is left. -/
def drain (predecessors : Nat → List Nat) : (fuel : Nat) → DivergenceState → DivergenceState
  | 0, state => state
  | fuel + 1, state =>
    match state.worklist with
    | [] => state
    | index :: worklist =>
      drain predecessors fuel ((predecessors index).foldl retire { state with worklist })

end DivergenceState

/-- The rows of the compressed predecessor table. -/
def predecessorRows (successors : Successors) : Nat → List Nat :=
  let edges := incomingEdges successors.zipIdx
  let predBounds := prefixSums successors.length (counts edges)
  let preds := (fill edges predBounds fun _ => 0).2
  fun index => slice preds (predBounds index) (predBounds (index + 1))

/-- Mark every instruction control can only leave by aborting. Each instruction
is popped at most once, so the instruction count is enough fuel. -/
def computeDivergence (successors : Successors) (nonReturning : List Bool) : List Bool :=
  let numInsts := successors.length
  let seeds := (List.range nonReturning.length).filter fun index => nonReturning[index]?.getD false
  if seeds.isEmpty then List.replicate numInsts false
  else
    let final := DivergenceState.drain (predecessorRows successors) numInsts
      { diverging := fun index => seeds.contains index
        unmarked := fun index => (succs successors index).length
        worklist := seeds.reverse }
    (List.range numInsts).map final.diverging

/-- Which registers a diverging instruction reads. -/
def collectDivergingUses (vregCount : Nat) (instUses : VRegTable) (diverging : List Bool) : List Bool :=
  (List.range instUses.length).foldl
    (fun table index =>
      if diverging[index]?.getD false then (vregs instUses index).foldl (fun table vreg => table.set vreg true) table
      else table)
    (List.replicate vregCount false)

/-- Whether some successor is at or before its own instruction. -/
def hasBackEdge (successors : Successors) : Bool :=
  successors.zipIdx.any fun (targets, source) => targets.any (· ≤ source)

/-- Blocks are delimited by instruction 0, branch targets, and the instructions
after anything but a plain fallthrough. -/
def isLeader (numInsts : Nat) (successors : Successors) (index : Nat) : Bool :=
  index = 0 || successors.zipIdx.any fun (targets, source) =>
    let fallsThrough := targets == [source + 1]
    (!fallsThrough && source + 1 < numInsts && index = source + 1) ||
      targets.any fun target => target != source + 1 && target = index

structure BlockPartition where
  starts : List Nat
  blockOf : List Nat

namespace BlockPartition

def len (blocks : BlockPartition) : Nat := blocks.starts.length - 1

/-- First and last instruction of a block, both inclusive. -/
def span (blocks : BlockPartition) (block : Nat) : Nat × Nat :=
  (blocks.starts[block]?.getD 0, blocks.starts[block + 1]?.getD 0 - 1)

def of (blocks : BlockPartition) (inst : Nat) : Nat := blocks.blockOf[inst]?.getD 0

end BlockPartition

def partitionBlocks (numInsts : Nat) (successors : Successors) : BlockPartition :=
  let leader := isLeader numInsts successors
  { starts := (List.range numInsts).filter leader ++ [numInsts]
    blockOf := (List.range numInsts).map fun index => (List.range (index + 1)).countP leader - 1 }

/-- A solved live set, ascending and without repetition. -/
abbrev LiveSet := List VReg

/-- A live set under construction. `positions` is meaningful only for the
members it points back at, so clearing leaves it stale. -/
structure WorkingLiveSet where
  members : List VReg
  positions : Nat → Nat

namespace WorkingLiveSet

def new : WorkingLiveSet := ⟨[], fun _ => 0⟩

def contains (live : WorkingLiveSet) (vreg : VReg) : Bool :=
  live.members[live.positions vreg]? = some vreg

def insert (live : WorkingLiveSet) (vreg : VReg) : WorkingLiveSet :=
  if live.contains vreg then live
  else ⟨live.members ++ [vreg], Function.update live.positions vreg live.members.length⟩

/-- Swap the last member into the hole and repoint it. -/
def remove (live : WorkingLiveSet) (vreg : VReg) : WorkingLiveSet :=
  if live.contains vreg then
    let position := live.positions vreg
    let members := (live.members.set position (live.members.getLast?.getD vreg)).dropLast
    match members[position]? with
    | some moved => ⟨members, Function.update live.positions moved position⟩
    | none => ⟨members, live.positions⟩
  else live

def clear (live : WorkingLiveSet) : WorkingLiveSet := { live with members := [] }

def unionFrom (live : WorkingLiveSet) (other : LiveSet) : WorkingLiveSet := other.foldl insert live

/-- Whether `solved` already holds exactly this set. -/
def holds (live : WorkingLiveSet) (solved : LiveSet) : Bool :=
  solved.length = live.members.length && solved.all live.contains

def publish (live : WorkingLiveSet) : LiveSet := live.members.insertionSort (· ≤ ·)

end WorkingLiveSet

section Solve
variable (successors : Successors) (instUses instDefs : VRegTable) (blocks : BlockPartition)

/-- The union of the live-in sets of the blocks the terminator can reach. -/
def collectBlockLiveOut (block : Nat) (liveIn : Nat → LiveSet) (out : WorkingLiveSet) : WorkingLiveSet :=
  (succs successors (blocks.span block).2).foldl
    (fun out successor => out.unionFrom (liveIn (blocks.of successor))) out.clear

/-- Apply one instruction backward: definitions die, then uses are live. -/
def transferInst (scratch : WorkingLiveSet) (index : Nat) : WorkingLiveSet :=
  (vregs instUses index).foldl .insert ((vregs instDefs index).foldl .remove scratch)

def transferBlock (block : Nat) (liveIn : Nat → LiveSet) (scratch : WorkingLiveSet) : WorkingLiveSet :=
  let (start, stop) := blocks.span block
  (List.range' start (stop + 1 - start)).reverse.foldl (transferInst instUses instDefs)
    (collectBlockLiveOut successors blocks block liveIn scratch)

structure SolveState where
  liveIn : Nat → LiveSet
  scratch : WorkingLiveSet
  queue : List Nat
  queued : Nat → Bool

/-- Requeue a predecessor unless it is queued already. -/
def SolveState.enqueue (state : SolveState) (block : Nat) : SolveState :=
  if state.queued block then state
  else { state with queue := state.queue ++ [block], queued := Function.update state.queued block true }

/-- Visit the block popped from the queue; its predecessors are requeued only
when its live-in set changed. -/
def SolveState.visit (predecessors : Nat → List Nat) (state : SolveState) (block : Nat) : SolveState :=
  let scratch := transferBlock successors instUses instDefs blocks block state.liveIn state.scratch
  let state := { state with scratch, queued := Function.update state.queued block false }
  if scratch.holds (state.liveIn block) then state
  else
    (predecessors block).foldl .enqueue
      { state with liveIn := Function.update state.liveIn block scratch.publish }

def SolveState.run (predecessors : Nat → List Nat) : (fuel : Nat) → SolveState → SolveState
  | 0, state => state
  | fuel + 1, state =>
    match state.queue with
    | [] => state
    | block :: queue =>
      run predecessors fuel
        (SolveState.visit successors instUses instDefs blocks predecessors { state with queue } block)

/-- The compressed predecessor table. The fill advances the offsets themselves,
and the shift puts every row's start back. -/
def buildPredecessorCsr (successors : List (List Nat)) : Table × Table :=
  let n := successors.length
  let offsets := prefixSums n (counts (incomingEdges successors.zipIdx))
  let (offsets, predecessors) := fill (incomingEdges successors.zipIdx.reverse) offsets fun _ => 0
  let offsets := (List.range' 1 (n - 1)).reverse.foldl
    (fun offsets index => Function.update offsets index (offsets (index - 1))) offsets
  (Function.update offsets 0 0, predecessors)

/-- The successor blocks of each block's terminator. -/
def blockSuccessors : List (List Nat) :=
  (List.range blocks.len).map fun block => (succs successors (blocks.span block).2).map blocks.of

/-- Enough visits for every set to grow to its full width. -/
def solveFuel (vregCount : Nat) : Nat :=
  let edges := (blockSuccessors successors blocks).flatten.length
  blocks.len * vregCount * (edges + 1) + blocks.len

def initialSolveState : SolveState :=
  { liveIn := fun _ => []
    scratch := .new
    queue := (List.range blocks.len).reverse
    queued := fun block => block < blocks.len }

/-- The cyclic solve: a worklist over blocks, seeded in descending order. -/
def solveBlockLiveness (vregCount : Nat) : Nat → LiveSet :=
  let (offsets, predecessors) := buildPredecessorCsr (blockSuccessors successors blocks)
  let rows := fun block => slice predecessors (offsets block) (offsets (block + 1))
  (SolveState.run successors instUses instDefs blocks rows (solveFuel successors blocks vregCount)
    (initialSolveState blocks)).liveIn

end Solve

abbrev Ranges := IndexMap (Option LiveRange)

/-- Grow the register's range to contain the index. -/
def extend (ranges : Ranges) (point : VReg × Nat) : Ranges :=
  let (vreg, index) := point
  match ranges[vreg]?.join with
  | some range => ranges.set vreg (some (range.extend index))
  | none => ranges.set vreg (some (.point index))

structure BlockLiveness where
  blocks : BlockPartition
  liveIn : Nat → LiveSet

/-- The definition and use points of one instruction. -/
def instPoints (instUses instDefs : VRegTable) (index : Nat) : List (VReg × Nat) :=
  (vregs instDefs index ++ vregs instUses index).map fun vreg => (vreg, index)

/-- Extend the ranges of the registers live at a block's two boundaries. The
live-out set is reused from one block to the next. -/
def extendBoundaries (successors : Successors) (cyclic : BlockLiveness) (state : Ranges × WorkingLiveSet) (block : Nat) :
    Ranges × WorkingLiveSet :=
  let (start, stop) := cyclic.blocks.span block
  let liveOut := collectBlockLiveOut successors cyclic.blocks block cyclic.liveIn state.2
  let points := (cyclic.liveIn block).map (fun vreg => (vreg, start)) ++ liveOut.members.map fun vreg => (vreg, stop)
  (points.foldl extend state.1, liveOut)

def buildLiveRanges (numInsts vregCount : Nat) (instUses instDefs : VRegTable) (successors : Successors)
    (cyclic : Option BlockLiveness) : Ranges :=
  let ranges := ((List.range numInsts).flatMap (instPoints instUses instDefs)).foldl extend
    (List.replicate vregCount none)
  match cyclic with
  | none => ranges
  | some cyclic => ((List.range cyclic.blocks.len).foldl (extendBoundaries successors cyclic) (ranges, .new)).1

/-- What an adapter reports about one instruction. -/
structure InstFacts (Reg : Type) where
  successors : List Nat
  uses : List VReg
  defs : List VReg
  clobbers : List Reg
  nonReturning : Bool
  deriving DecidableEq, Repr

/-- A function as the analysis sees it. Every target and every register the
facts mention is in range; the source's tables are indexed by both. -/
structure Program (Reg : Type) where
  insts : List (InstFacts Reg)
  vregCount : Nat
  vregClasses : List RegClass
  targets_lt : ∀ inst ∈ insts, ∀ target ∈ inst.successors, target < insts.length
  vregs_lt : ∀ inst ∈ insts, ∀ vreg, vreg ∈ inst.uses ∨ vreg ∈ inst.defs → vreg < vregCount

namespace Program

variable {Reg : Type} (program : Program Reg)

def numInsts : Nat := program.insts.length

def successors : Successors := program.insts.map InstFacts.successors

def instUses : VRegTable := program.insts.map InstFacts.uses

def instDefs : VRegTable := program.insts.map InstFacts.defs

/-- The block sets are solved only where a back edge makes ranges depend on
them. -/
def blockLiveness : Option BlockLiveness :=
  if hasBackEdge program.successors then
    let blocks := partitionBlocks program.numInsts program.successors
    some ⟨blocks, solveBlockLiveness program.successors program.instUses program.instDefs blocks program.vregCount⟩
  else none

def liveRanges : Ranges :=
  buildLiveRanges program.numInsts program.vregCount program.instUses program.instDefs program.successors
    program.blockLiveness

/-- The liveness an allocator receives. An empty function has empty tables. -/
def analyze : LivenessInfo Reg :=
  if program.numInsts = 0 then ⟨[], [], [], [], [], program.vregClasses⟩
  else
    let nonReturningAt := program.insts.map InstFacts.nonReturning
    let divergingAt := computeDivergence program.successors nonReturningAt
    { ranges := program.liveRanges
      clobbersAt := program.insts.map InstFacts.clobbers
      nonReturningAt
      divergingAt
      divergingUses := collectDivergingUses program.vregCount program.instUses divergingAt
      vregClasses := program.vregClasses }

end Program

end Rue.Codegen.Liveness
