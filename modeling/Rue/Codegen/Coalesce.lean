import Rue.Codegen.LiveRange

/-! Register coalescing merges the two ends of a move when the source dies at
the move and the destination is born there. -/

namespace Rue.Codegen

namespace LivenessInfo

variable {Reg : Type}

def mergedRange : Option LiveRange → Option LiveRange → Option LiveRange
  | some absorbed, some representative => some (absorbed.hull representative)
  | only, none => only
  | none, only => only

/-- Fold every fact of `absorbed` into `representative`. The source asserts
that both have one class; `coalesce` is its only caller and checks it. -/
def mergeInto (liveness : LivenessInfo Reg) (absorbed representative : VReg) : LivenessInfo Reg :=
  let merged := mergedRange (liveness.range absorbed) (liveness.range representative)
  { liveness with
    ranges := (liveness.ranges.set representative merged).set absorbed none
    divergingUses :=
      if liveness.hasDivergingUse absorbed then liveness.divergingUses.set representative true
      else liveness.divergingUses }

end LivenessInfo

structure CoalesceCandidate where
  instIdx : Nat
  dst : VReg
  src : VReg
  deriving DecidableEq, Repr

/-- `coalesceMap` holds the representative of each merged register. -/
structure CoalesceResult where
  coalesceMap : IndexMap (Option VReg)
  eliminatedMoves : List Bool
  eliminatedCount : Nat
  deriving DecidableEq, Repr

namespace CoalesceResult

def empty : CoalesceResult := ⟨[], [], 0⟩

def withVregCount (vregCount : Nat) : CoalesceResult := ⟨List.replicate vregCount none, [], 0⟩

def representative (result : CoalesceResult) (vreg : VReg) : VReg :=
  result.coalesceMap[vreg]?.join.getD vreg

def isEliminated (result : CoalesceResult) (instIdx : Nat) : Bool :=
  result.eliminatedMoves[instIdx]?.getD false

def markEliminated (result : CoalesceResult) (instIdx : Nat) : CoalesceResult :=
  let moves := result.eliminatedMoves ++
    List.replicate (instIdx + 1 - result.eliminatedMoves.length) false
  if moves[instIdx]?.getD false then { result with eliminatedMoves := moves }
  else
    { result with
      eliminatedMoves := moves.set instIdx true
      eliminatedCount := result.eliminatedCount + 1 }

end CoalesceResult

/-- The union-find state of one coalescing run over a liveness. -/
structure CoalesceState (Reg : Type) where
  parent : IndexMap (Option VReg)
  liveness : LivenessInfo Reg
  result : CoalesceResult

namespace CoalesceState

variable {Reg : Type}

def init (liveness : LivenessInfo Reg) : CoalesceState Reg :=
  { parent := List.replicate liveness.ranges.length none
    liveness
    result := .withVregCount liveness.ranges.length }

/-- Follow parents to the root, compressing the path on the way back. The fuel
is the number of registers, which bounds every parent chain. -/
def find : (fuel : Nat) → IndexMap (Option VReg) → VReg → VReg × IndexMap (Option VReg)
  | 0, parent, vreg => (vreg, parent)
  | fuel + 1, parent, vreg =>
    match parent[vreg]?.join with
    | some next =>
      let (root, parent) := find fuel parent next
      (root, parent.set vreg (some root))
    | none => (vreg, parent)

/-- Whether a move may be removed by giving both ends one register. -/
def canCoalesce (movePoint : Nat) (dstRange srcRange : LiveRange) : Bool :=
  srcRange.end ≤ movePoint && movePoint ≤ dstRange.start

def merge (state : CoalesceState Reg) (instIdx : Nat) (dst src : VReg) : CoalesceState Reg :=
  { parent := state.parent.set dst (some src)
    liveness := state.liveness.mergeInto dst src
    result :=
      { state.result with coalesceMap := state.result.coalesceMap.set dst (some src) }.markEliminated
        instIdx }

def process (state : CoalesceState Reg) (candidate : CoalesceCandidate) : CoalesceState Reg :=
  let fuel := state.parent.length + 1
  let (dst, parent) := find fuel state.parent candidate.dst
  let (src, parent) := find fuel parent candidate.src
  let state := { state with parent }
  if dst = src then { state with result := state.result.markEliminated candidate.instIdx }
  else if state.liveness.classOf dst ≠ state.liveness.classOf src then state
  else
    match state.liveness.range dst, state.liveness.range src with
    | some dstRange, some srcRange =>
      if canCoalesce candidate.instIdx dstRange srcRange then
        state.merge candidate.instIdx dst src
      else state
    | _, _ => state

end CoalesceState

/-- Coalesce the candidates in order, folding merged facts into the liveness. -/
def coalesce {Reg : Type} (candidates : List CoalesceCandidate) (liveness : LivenessInfo Reg) :
    CoalesceResult × LivenessInfo Reg :=
  let final := candidates.foldl CoalesceState.process (CoalesceState.init liveness)
  (final.result, final.liveness)

end Rue.Codegen
