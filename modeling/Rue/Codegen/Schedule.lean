import Rue.Codegen.Mir
import Mathlib.Data.List.Sort

/-! Instruction scheduling: a dependency graph over each block between barriers,
critical-path priorities, list scheduling, and one permutation in place. The
scratch tables of one block are reused for the next. -/

namespace Rue.Codegen.Schedule

/-- The facts a backend supplies about its instructions. -/
structure SchedulerAdapter (Inst Reg : Type) where
  regClass : Reg → RegClass
  regIndex : Reg → Nat
  latency : Inst → Nat
  isBarrier : Inst → Bool
  accessesMemory : Inst → Bool
  regsRead : Inst → List Reg
  regsWritten : Inst → List Reg
  clobbers : Inst → List Reg
  writesFlags : Inst → Bool
  readsFlags : Inst → Bool

/-- Truncate, or extend with a filler. -/
def resize {α : Type} (items : List α) (length : Nat) (filler : α) : List α :=
  items.take length ++ List.replicate (length - items.length) filler

/-- For each register of each class, its last writer in the block and the
instructions that have read it since. -/
structure RegTracker where
  lastWriter : RegClass → List (Option Nat)
  lastReaders : RegClass → List (List Nat)

namespace RegTracker

def new : RegTracker := ⟨fun _ => [], fun _ => []⟩

/-- Forget one block's facts but keep the tables. -/
def clear (regs : RegTracker) : RegTracker :=
  ⟨fun kind => (regs.lastWriter kind).map fun _ => none, fun kind => (regs.lastReaders kind).map fun _ => []⟩

def ensure (regs : RegTracker) (kind : RegClass) (reg : Nat) : RegTracker :=
  { lastWriter := fun other =>
      if other = kind ∧ (regs.lastWriter other).length ≤ reg then resize (regs.lastWriter other) (reg + 1) none
      else regs.lastWriter other
    lastReaders := fun other =>
      if other = kind ∧ (regs.lastReaders other).length ≤ reg then resize (regs.lastReaders other) (reg + 1) []
      else regs.lastReaders other }

def writerOf (regs : RegTracker) (kind : RegClass) (reg : Nat) : Option Nat := (regs.lastWriter kind)[reg]?.join

def readersOf (regs : RegTracker) (kind : RegClass) (reg : Nat) : List Nat := (regs.lastReaders kind)[reg]?.getD []

/-- Readers of the previous value are dropped. -/
def recordWrite (regs : RegTracker) (kind : RegClass) (reg index : Nat) : RegTracker :=
  let regs := regs.ensure kind reg
  { lastWriter := fun other =>
      if other = kind then (regs.lastWriter other).set reg (some index) else regs.lastWriter other
    lastReaders := fun other => if other = kind then (regs.lastReaders other).set reg [] else regs.lastReaders other }

def recordRead (regs : RegTracker) (kind : RegClass) (reg index : Nat) : RegTracker :=
  let regs := regs.ensure kind reg
  { regs with
    lastReaders := fun other =>
      if other = kind then (regs.lastReaders other).modify reg (· ++ [index]) else regs.lastReaders other }

end RegTracker

structure SchedNode where
  deps : List Nat
  users : List Nat
  priority : Nat
  latency : Nat
  deriving DecidableEq, Repr

namespace SchedNode

def new (latency : Nat) : SchedNode := ⟨[], [], 0, latency⟩

/-- Prepare a retained node for another block. -/
def reset (node : SchedNode) (latency : Nat) : SchedNode := { node with deps := [], users := [], priority := 0, latency }

end SchedNode

/-- `lastEdgeTarget` holds the newest edge's target for each source, or none. -/
structure GraphScratch where
  nodes : List SchedNode
  lastEdgeTarget : List (Option Nat)

def GraphScratch.new : GraphScratch := ⟨[], []⟩

/-- All edges into a target are found while visiting it, so remembering each
source's newest target is enough to skip duplicates. -/
def addEdge (target : Nat) (graph : GraphScratch) (source : Nat) : GraphScratch :=
  if graph.lastEdgeTarget[source]?.join = some target then graph
  else
    { nodes :=
        (graph.nodes.modify target fun node => { node with deps := node.deps ++ [source] }).modify source fun node =>
          { node with users := node.users ++ [target] }
      lastEdgeTarget := graph.lastEdgeTarget.set source (some target) }

section Graph
variable {Inst Reg : Type} (adapter : SchedulerAdapter Inst Reg)

/-- What the instructions visited so far have done to registers, memory and
flags. -/
structure BlockFacts where
  regs : RegTracker
  lastMemoryAccess : Option Nat
  lastFlagsWriter : Option Nat
  lastFlagsReaders : List Nat

namespace BlockFacts

variable (facts : BlockFacts)

def writer (reg : Reg) : Option Nat := facts.regs.writerOf (adapter.regClass reg) (adapter.regIndex reg)

def readers (reg : Reg) : List Nat := facts.regs.readersOf (adapter.regClass reg) (adapter.regIndex reg)

/-- The sources of the edges into an instruction, in the order they are added. -/
def dependencies (inst : Inst) (index : Nat) : List Nat :=
  (adapter.regsRead inst).filterMap (facts.writer adapter) ++
    (adapter.regsWritten inst).filterMap (facts.writer adapter) ++
    ((adapter.regsWritten inst).flatMap (facts.readers adapter)).filter (· ≠ index) ++
    (if adapter.readsFlags inst then facts.lastFlagsWriter.toList else []) ++
    (if adapter.writesFlags inst then facts.lastFlagsWriter.toList else []) ++
    (if adapter.writesFlags inst then facts.lastFlagsReaders.filter (· ≠ index) else []) ++
    (if adapter.accessesMemory inst then facts.lastMemoryAccess.toList else []) ++
    (adapter.clobbers inst).flatMap fun reg =>
      (facts.readers adapter reg).filter (· ≠ index) ++ (facts.writer adapter reg).toList

/-- A clobber counts as a write. Writes are recorded before reads, so an
instruction that does both reads the value it wrote. -/
def record (inst : Inst) (index : Nat) : BlockFacts :=
  let write := fun (regs : RegTracker) reg => regs.recordWrite (adapter.regClass reg) (adapter.regIndex reg) index
  let read := fun (regs : RegTracker) reg => regs.recordRead (adapter.regClass reg) (adapter.regIndex reg) index
  let regs := (adapter.regsRead inst).foldl read
    ((adapter.regsWritten inst).foldl write ((adapter.clobbers inst).foldl write facts.regs))
  let flagsReaders := if adapter.writesFlags inst then [] else facts.lastFlagsReaders
  { regs
    lastMemoryAccess := if adapter.accessesMemory inst then some index else facts.lastMemoryAccess
    lastFlagsWriter := if adapter.writesFlags inst then some index else facts.lastFlagsWriter
    lastFlagsReaders := if adapter.readsFlags inst then flagsReaders ++ [index] else flagsReaders }

end BlockFacts

/-- Visit one instruction of a block. -/
def visitInst (state : GraphScratch × BlockFacts) (entry : Inst × Nat) : GraphScratch × BlockFacts :=
  let (graph, facts) := state
  let (inst, index) := entry
  ((facts.dependencies adapter inst index).foldl (addEdge index) graph, facts.record adapter inst index)

/-- The dependency graph of a block, built in the retained tables. -/
def buildDepGraphReusing (block : List Inst) (regs : RegTracker) (graph : GraphScratch) : GraphScratch × RegTracker :=
  let nodes := List.zipWith (fun node inst => node.reset (adapter.latency inst))
    (resize graph.nodes block.length (.new 0)) block
  let (graph, facts) := block.zipIdx.foldl (visitInst adapter)
    (⟨nodes, List.replicate block.length none⟩, ⟨regs.clear, none, none, []⟩)
  (graph, facts.regs)

end Graph

/-- Critical-path lengths, from the last node to the first. The sum wraps at the
width of the priority. -/
def calculatePriorities (nodes : List SchedNode) : List SchedNode :=
  (List.range nodes.length).reverse.foldl
    (fun nodes index =>
      nodes.modify index fun node =>
        let maxUser := (node.users.map fun user => (nodes[user]?.map SchedNode.priority).getD 0).max?.getD 0
        { node with priority := (node.latency + maxUser) % 2 ^ 32 })
    nodes

structure ReadyInst where
  priority : Nat
  idx : Nat
  deriving DecidableEq, Repr

/-- Higher priority first, ties to the lower index. -/
def ReadyInst.outranks (first second : ReadyInst) : Bool :=
  second.priority < first.priority || first.priority = second.priority && first.idx < second.idx

/-- Take the greatest entry off the heap. -/
def popReady : List ReadyInst → Option (ReadyInst × List ReadyInst)
  | [] => none
  | first :: rest =>
    let best := rest.foldl (fun best entry => if entry.outranks best then entry else best) first
    some (best, (first :: rest).erase best)

structure ScheduleScratch where
  scheduled : List Nat
  remainingDeps : List Nat
  ready : List ReadyInst

namespace ScheduleScratch

def new : ScheduleScratch := ⟨[], [], []⟩

/-- Every buffer is emptied and only its storage is kept. -/
def clear (_ : ScheduleScratch) : ScheduleScratch := .new

/-- Retire one edge; its target is ready with its last one. -/
def completeEdge (nodes : List SchedNode) (state : ScheduleScratch) (user : Nat) : ScheduleScratch :=
  let remainingDeps := state.remainingDeps.modify user (· - 1)
  if remainingDeps[user]? = some 0 then
    { state with
      remainingDeps
      ready := state.ready ++ [⟨(nodes[user]?.map SchedNode.priority).getD 0, user⟩] }
  else { state with remainingDeps }

/-- Pop until nothing is ready. Every node is popped at most once, so the node
count is enough fuel. -/
def run (nodes : List SchedNode) : (fuel : Nat) → ScheduleScratch → ScheduleScratch
  | 0, state => state
  | fuel + 1, state =>
    match popReady state.ready with
    | none => state
    | some (best, ready) =>
      run nodes fuel
        (((nodes[best.idx]?.map SchedNode.users).getD []).foldl (completeEdge nodes)
          { state with ready, scheduled := state.scheduled ++ [best.idx] })

end ScheduleScratch

/-- The order in which a block's nodes are scheduled. -/
def scheduleBlockReusing (nodes : List SchedNode) (scratch : ScheduleScratch) : ScheduleScratch :=
  let scratch := { scratch.clear with remainingDeps := nodes.map fun node => node.deps.length }
  if nodes.isEmpty then scratch
  else
    let ready := nodes.zipIdx.filterMap fun (node, index) =>
      if scratch.remainingDeps[index]? = some 0 then some ⟨node.priority, index⟩ else none
    ScheduleScratch.run nodes nodes.length { scratch with ready }

structure Scratch where
  regs : RegTracker
  graph : GraphScratch
  schedule : ScheduleScratch

def Scratch.new : Scratch := ⟨.new, .new, .new⟩

section Permutation
variable {Inst Reg : Type} (adapter : SchedulerAdapter Inst Reg)

/-- Record the schedule of the instructions from `start` up to `stop`. -/
def recordBlockPermutation (instructions : List Inst) (start stop : Nat) (state : List Nat × Scratch) :
    List Nat × Scratch :=
  let (destination, scratch) := state
  if stop - start ≤ 2 then state
  else
    let (graph, regs) := buildDepGraphReusing adapter ((instructions.drop start).take (stop - start)) scratch.regs scratch.graph
    let nodes := calculatePriorities graph.nodes
    let schedule := scheduleBlockReusing nodes scratch.schedule
    (schedule.scheduled.zipIdx.foldl
        (fun destination (oldOffset, newOffset) => destination.set (start + oldOffset) (start + newOffset)) destination,
      ⟨regs, { graph with nodes }, schedule⟩)

def swap {α : Type} (items : List α) (first second : Nat) : List α :=
  match items[first]?, items[second]? with
  | some a, some b => (items.set first b).set second a
  | _, _ => items

/-- Swap until the slot maps to itself. Every swap settles another slot, so the
length is enough fuel. -/
def settle {α : Type} (current : Nat) : (fuel : Nat) → List α × List Nat → List α × List Nat
  | 0, state => state
  | fuel + 1, (items, destination) =>
    let target := destination[current]?.getD current
    if target = current then (items, destination)
    else settle current fuel (swap items current target, swap destination current target)

/-- Apply an `old index -> new index` permutation in place. -/
def applyPermutation {α : Type} (items : List α) (destination : List Nat) : List α :=
  ((List.range destination.length).foldl (fun state current => settle current destination.length state)
    (items, destination)).1

structure BlockWalk where
  blockStart : Nat
  recorded : List Nat × Scratch

/-- At a barrier, record the block that ends there. -/
def visitBlockEnd (instructions : List Inst) (walk : BlockWalk) (entry : Inst × Nat) : BlockWalk :=
  let (inst, blockEnd) := entry
  if !adapter.isBarrier inst then walk
  else ⟨blockEnd + 1, recordBlockPermutation adapter instructions walk.blockStart blockEnd walk.recorded⟩

def scheduleInstructions (instructions : List Inst) : List Inst :=
  if instructions.length < 3 then instructions
  else
    let walk := instructions.zipIdx.foldl (visitBlockEnd adapter instructions)
      ⟨0, List.range instructions.length, .new⟩
    let (destination, _) :=
      if walk.blockStart < instructions.length then
        recordBlockPermutation adapter instructions walk.blockStart instructions.length walk.recorded
      else walk.recorded
    applyPermutation instructions destination

end Permutation

end Rue.Codegen.Schedule
