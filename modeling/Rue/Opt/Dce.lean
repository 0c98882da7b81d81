import Rue.Cfg.Semantics
import Rue.Lib.Search

/-! Dead code elimination: values nothing live uses are detached, and blocks the
entry does not reach are removed with a renumbering of the rest. -/

namespace Rue.Dce

structure Stats where
  instructionsRemoved : Nat
  blocksRemoved : Nat
  deriving DecidableEq

def Stats.madeProgress (stats : Stats) : Bool := stats.instructionsRemoved > 0 || stats.blocksRemoved > 0

def hasSideEffects (cfg : Cfg) (value : CfgValue) : Bool :=
  (cfg.inst value).data.mayTrap || (cfg.inst value).data.hasObservableSideEffect

def computeReachableBlocks (cfg : Cfg) : List BlockId := Lib.Search.markOnPop cfg.succs cfg.blockCount cfg.entry

/-- The instructions that must stay, then what the terminators use and the
parameters, of the reachable blocks. -/
def liveRoots (cfg : Cfg) (reachable : List BlockId) : List CfgValue :=
  let blocks := cfg.blocks.filter (·.id ∈ reachable)
  blocks.flatMap (fun block => block.insts.filter (hasSideEffects cfg)) ++
    blocks.flatMap fun block => block.terminator.uses ++ block.params.map Prod.fst

def computeLiveValues (cfg : Cfg) (reachable : List BlockId) : List CfgValue :=
  Lib.Search.markFrom cfg.visitInstructionUses cfg.valueCount (liveRoots cfg reachable)

def eliminateDeadInstructions (cfg : Cfg) (live : List CfgValue) : Cfg :=
  { cfg with block := fun block => { cfg.block block with insts := (cfg.block block).insts.filter (· ∈ live) } }

def remap (keep : BlockId → Bool) (block : BlockId) : BlockId := ((List.range block).filter keep).length

def renumber (cfg : Cfg) (keep : BlockId → Bool) : Cfg :=
  let kept := (List.range cfg.blockCount).filter keep
  { cfg with
    entry := remap keep cfg.entry
    blockCount := kept.length
    block := fun index =>
      let block := cfg.block (kept.getD index 0)
      { block with id := index, terminator := block.terminator.retarget (remap keep) } }

/-- Drops the other blocks and numbers the kept ones densely. There is no result
if the entry or a target of a kept block is dropped. -/
def retainBlocks (cfg : Cfg) (keep : BlockId → Bool) : Option Cfg :=
  let kept := (List.range cfg.blockCount).filter keep
  if kept.length = cfg.blockCount then some cfg
  else if keep cfg.entry ∧ ∀ block ∈ kept, ∀ target ∈ cfg.succs block, keep target then some (renumber cfg keep)
  else none

def instructionCount (cfg : Cfg) : Nat := (cfg.blocks.map fun block => block.insts.length).sum

def run (cfg : Cfg) : Option (Cfg × Stats) :=
  let reachable := computeReachableBlocks cfg
  let live := computeLiveValues cfg reachable
  (retainBlocks (eliminateDeadInstructions cfg live) (· ∈ reachable)).map fun after =>
    (after, ⟨instructionCount cfg - instructionCount after, cfg.blockCount - after.blockCount⟩)

end Rue.Dce
