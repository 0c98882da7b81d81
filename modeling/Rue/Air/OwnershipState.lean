import Mathlib.Data.Finset.Basic

/-! Move states of a body analysis: what each variable's name says about its
moves, the scope frames that save the states of shadowed bindings and the
snapshots taken at the break and continue edges of the enclosing loops. -/

namespace Rue.Air

abbrev Spur := Nat

abbrev FieldPath := List Spur

structure Span where
  fileId : Nat
  start : Nat
  stop : Nat
  deriving DecidableEq

@[ext]
structure VariableMoveState where
  fullMove : Option Span
  fullMoveOnAllPaths : Bool
  partialMoves : List (FieldPath × Span)
  partialMovesOnAllPaths : Finset FieldPath
  unique : (partialMoves.map Prod.fst).Nodup
  subset : ∀ path ∈ partialMovesOnAllPaths, path ∈ partialMoves.map Prod.fst
  full : fullMoveOnAllPaths = true → fullMove ≠ none
  deriving DecidableEq

namespace VariableMoveState

def default : VariableMoveState where
  fullMove := none
  fullMoveOnAllPaths := false
  partialMoves := []
  partialMovesOnAllPaths := ∅
  unique := List.nodup_nil
  subset := by simp
  full := by simp

/-- Upsert into the association list of partial moves. -/
def upsert (moves : List (FieldPath × Span)) (path : FieldPath) (span : Span) : List (FieldPath × Span) :=
  match moves with
  | [] => [(path, span)]
  | (moved, existing) :: rest =>
    if moved = path then (moved, span) :: rest else (moved, existing) :: upsert rest path span

theorem upsert_mem (moves : List (FieldPath × Span)) (path : FieldPath) (span : Span) (other : FieldPath) :
    other ∈ (upsert moves path span).map Prod.fst ↔ other = path ∨ other ∈ moves.map Prod.fst := by
  induction moves with
  | nil => simp [upsert]
  | cons entry rest ih =>
    obtain ⟨moved, existing⟩ := entry
    simp only [upsert]
    split
    next same =>
      subst moved
      simp
    next different =>
      simp only [List.map_cons, List.mem_cons, ih]
      exact or_left_comm

theorem upsert_nodup (moves : List (FieldPath × Span)) (path : FieldPath) (span : Span)
    (unique : (moves.map Prod.fst).Nodup) : ((upsert moves path span).map Prod.fst).Nodup := by
  induction moves with
  | nil => simp [upsert]
  | cons entry rest ih =>
    obtain ⟨moved, existing⟩ := entry
    simp only [List.map_cons, List.nodup_cons] at unique
    simp only [upsert]
    split
    next same => simpa using unique
    next different =>
      simp only [List.map_cons, List.nodup_cons]
      refine ⟨?_, ih unique.2⟩
      intro member
      rcases (upsert_mem rest path span moved).mp member with same | inside
      · exact different same
      · exact unique.1 inside

def fullyMoved (span : Span) : VariableMoveState where
  fullMove := some span
  fullMoveOnAllPaths := true
  partialMoves := []
  partialMovesOnAllPaths := ∅
  unique := List.nodup_nil
  subset := by simp
  full := by simp

def markPathMoved (state : VariableMoveState) (path : FieldPath) (span : Span) : VariableMoveState :=
  if path = [] then fullyMoved span
  else if state.fullMove = none then
    { state with
      partialMoves := upsert state.partialMoves path span
      partialMovesOnAllPaths := insert path state.partialMovesOnAllPaths
      unique := upsert_nodup _ _ _ state.unique
      subset := by
        intro other member
        apply (upsert_mem _ _ _ _).mpr
        exact (Finset.mem_insert.mp member).imp id (state.subset other) }
  else state

def markPathReinitialized (state : VariableMoveState) (path : FieldPath) : VariableMoveState :=
  { state with
    partialMoves := state.partialMoves.filter fun entry => !path.isPrefixOf entry.1
    partialMovesOnAllPaths := state.partialMovesOnAllPaths.filter fun moved => !path.isPrefixOf moved
    unique := state.unique.sublist (List.filter_sublist.map _)
    subset := by
      intro moved member
      obtain ⟨inside, kept⟩ := Finset.mem_filter.mp member
      obtain ⟨entry, present, rfl⟩ := List.mem_map.mp (state.subset moved inside)
      exact List.mem_map.mpr ⟨entry, List.mem_filter.mpr ⟨present, kept⟩, rfl⟩ }

def isEmpty (state : VariableMoveState) : Bool :=
  state.fullMove.isNone && state.partialMoves.isEmpty

def addPartial (merged : List (FieldPath × Span)) (entry : FieldPath × Span) : List (FieldPath × Span) :=
  if entry.1 ∈ merged.map Prod.fst then merged else merged ++ [entry]

/-- Append the second branch's paths that are not there yet. -/
def unionPartial (first second : List (FieldPath × Span)) : List (FieldPath × Span) :=
  second.foldl addPartial first

theorem unionPartial_mem (first second : List (FieldPath × Span)) (path : FieldPath) :
    path ∈ (unionPartial first second).map Prod.fst ↔
      path ∈ first.map Prod.fst ∨ path ∈ second.map Prod.fst := by
  induction second generalizing first with
  | nil => simp [unionPartial]
  | cons entry rest ih =>
    rw [unionPartial, List.foldl_cons]
    apply (ih _).trans
    rw [addPartial]
    split
    next present =>
      simp only [List.map_cons, List.mem_cons]
      constructor
      · exact Or.imp_right Or.inr
      · rintro (inside | rfl | inside)
        · exact Or.inl inside
        · exact Or.inl present
        · exact Or.inr inside
    next absent => simp [or_assoc]

theorem unionPartial_nodup (first second : List (FieldPath × Span)) (unique : (first.map Prod.fst).Nodup) :
    ((unionPartial first second).map Prod.fst).Nodup := by
  induction second generalizing first with
  | nil => exact unique
  | cons entry rest ih =>
    rw [unionPartial, List.foldl_cons]
    apply ih
    rw [addPartial]
    split
    next present => exact unique
    next absent =>
      rw [List.map_append, List.nodup_append]
      refine ⟨unique, by simp, ?_⟩
      intro path inside other single same
      subst same
      simp only [List.map_cons, List.map_nil, List.mem_singleton] at single
      exact absent (single ▸ inside)

def mergeAllPaths (branch1 branch2 : VariableMoveState) : Finset FieldPath :=
  if branch1.fullMoveOnAllPaths then branch2.partialMovesOnAllPaths
  else if branch2.fullMoveOnAllPaths then branch1.partialMovesOnAllPaths
  else branch1.partialMovesOnAllPaths ∩ branch2.partialMovesOnAllPaths

def mergeUnion (branch1 branch2 : VariableMoveState) : VariableMoveState where
  fullMove := branch1.fullMove.or branch2.fullMove
  fullMoveOnAllPaths := branch1.fullMoveOnAllPaths && branch2.fullMoveOnAllPaths
  partialMoves := unionPartial branch1.partialMoves branch2.partialMoves
  partialMovesOnAllPaths := mergeAllPaths branch1 branch2
  unique := unionPartial_nodup _ _ branch1.unique
  subset := by
    intro path member
    apply (unionPartial_mem _ _ _).mpr
    simp only [mergeAllPaths] at member
    split at member
    · exact Or.inr (branch2.subset path member)
    · split at member
      · exact Or.inl (branch1.subset path member)
      · exact Or.inl (branch1.subset path (Finset.mem_inter.mp member).1)
  full := by
    intro both
    have first := branch1.full (Bool.and_eq_true_iff.mp both).1
    cases known : branch1.fullMove with
    | none => exact absurd known first
    | some span => simp

/-- One stored path against the best match so far: the exact path comes first, then
the shortest ancestor. -/
def closer (path : FieldPath) (best : Option (Nat × Span)) (entry : FieldPath × Span) : Option (Nat × Span) :=
  if entry.1.isPrefixOf path then
    let rank := if entry.1.length = path.length then 0 else entry.1.length
    if best.all fun found => rank < found.1 then some (rank, entry.2) else best
  else best

def isPathMoved (state : VariableMoveState) (path : FieldPath) : Option Span :=
  match state.fullMove with
  | some span => some span
  | none => (state.partialMoves.foldl (closer path) none).map Prod.snd

def movedStrictDescendant (state : VariableMoveState) (path : FieldPath) : Option (FieldPath × Span) :=
  state.partialMoves.find? fun entry => path.length < entry.1.length && path.isPrefixOf entry.1

def isPathOrDescendantMoved (state : VariableMoveState) (path : FieldPath) : Option Span :=
  match state.isPathMoved path with
  | some span => some span
  | none => (state.movedStrictDescendant path).map Prod.snd

/-- `PartialEq`: the partial moves compare as an unordered map. -/
def eq (first second : VariableMoveState) : Bool :=
  first.fullMove = second.fullMove
    && first.fullMoveOnAllPaths = second.fullMoveOnAllPaths
    && first.partialMovesOnAllPaths = second.partialMovesOnAllPaths
    && first.partialMoves.length = second.partialMoves.length
    && first.partialMoves.all fun entry => second.partialMoves.any fun other => other.1 = entry.1 ∧ other.2 = entry.2

end VariableMoveState

/-- `moved_vars`: the move state recorded for each name, if any. -/
abbrev MoveMap := Spur → Option VariableMoveState

namespace MoveMap

def new : MoveMap := fun _ => none

def insert (moves : MoveMap) (symbol : Spur) (state : VariableMoveState) : MoveMap :=
  fun other => if other = symbol then some state else moves other

def remove (moves : MoveMap) (symbol : Spur) : MoveMap :=
  fun other => if other = symbol then none else moves other

def getOrDefault (moves : MoveMap) (symbol : Spur) : VariableMoveState :=
  (moves symbol).getD VariableMoveState.default

end MoveMap

/-- One scope's saved states, in declaration order. -/
abbrev MoveFrame := List (Spur × Option VariableMoveState)

def restoreEntry (moves : MoveMap) (entry : Spur × Option VariableMoveState) : MoveMap :=
  match entry.2 with
  | some state => moves.insert entry.1 state
  | none => moves.remove entry.1

def restoreScopeMoves (moves : MoveMap) (frame : MoveFrame) : MoveMap :=
  frame.reverse.foldl restoreEntry moves

def unionMoveMaps (branch1 branch2 : MoveMap) : MoveMap := fun symbol =>
  if (branch1 symbol).isSome || (branch2 symbol).isSome then
    let merged := VariableMoveState.mergeUnion (branch1.getOrDefault symbol) (branch2.getOrDefault symbol)
    if merged.isEmpty then none else some merged
  else none

/-- Map equality: the same names, and equal states for each. -/
def MoveMap.Eq (first second : MoveMap) : Prop :=
  ∀ symbol, Option.Rel (fun one other => VariableMoveState.eq one other = true) (first symbol) (second symbol)

def moveMapBelow (lower upper : MoveMap) : Prop := (unionMoveMaps upper lower).Eq upper

/-- A snapshot taken at an edge, with the scope depth it is tagged with. -/
abbrev EdgeSnapshot := MoveMap × Nat

structure LoopEdgeStates where
  broke : Bool
  breakSnaps : List EdgeSnapshot
  continueSnaps : List EdgeSnapshot
  firstUnwoundFrame : Nat

def recordEdgeSnapshot (snaps : List EdgeSnapshot) (moves : MoveMap) (depth : Nat) : List EdgeSnapshot :=
  match snaps.getLast? with
  | some (existing, existingDepth) =>
    if existingDepth = depth then snaps.dropLast ++ [(unionMoveMaps existing moves, existingDepth)]
    else snaps ++ [(moves, depth)]
  | none => snaps ++ [(moves, depth)]

namespace LoopEdgeStates

def enteredAt (firstUnwoundFrame : Nat) : LoopEdgeStates :=
  { broke := false, breakSnaps := [], continueSnaps := [], firstUnwoundFrame }

def recordBreak (record : LoopEdgeStates) (moves : MoveMap) (depth : Nat) : LoopEdgeStates :=
  { record with broke := true, breakSnaps := recordEdgeSnapshot record.breakSnaps moves depth }

def recordContinue (record : LoopEdgeStates) (moves : MoveMap) (depth : Nat) : LoopEdgeStates :=
  { record with continueSnaps := recordEdgeSnapshot record.continueSnaps moves depth }

end LoopEdgeStates

/-- The kinds of edge that make an arm diverge, as a set of bits. -/
structure DivergenceKinds where
  bits : BitVec 8
  deriving DecidableEq

namespace DivergenceKinds

def none : DivergenceKinds := ⟨0⟩

def panic : DivergenceKinds := ⟨1⟩

def other : DivergenceKinds := ⟨2⟩

def exit : DivergenceKinds := ⟨4⟩

def hasOther (kinds : DivergenceKinds) : Bool := kinds.bits &&& other.bits != 0

end DivergenceKinds

/-- The stacks list their innermost element first; a frame lists its entries in
declaration order. -/
structure OwnershipState where
  movedVars : MoveMap
  movedScopeStack : List MoveFrame
  loopBreakStack : List LoopEdgeStates

namespace OwnershipState

def default : OwnershipState := { movedVars := MoveMap.new, movedScopeStack := [], loopBreakStack := [] }

def bindFresh (state : OwnershipState) (symbol : Spur) : OwnershipState :=
  let oldMoves := state.movedVars symbol
  { state with
    movedVars := state.movedVars.remove symbol
    movedScopeStack :=
      match state.movedScopeStack with
      | [] => []
      | frame :: outer => (frame ++ [(symbol, oldMoves)]) :: outer }

def pushScopeFrame (state : OwnershipState) : OwnershipState :=
  { state with movedScopeStack := [] :: state.movedScopeStack }

/-- What closing a scope does to one snapshot: only the depth tag decides
whether the snapshot was taken inside it. -/
def replay (frame : MoveFrame) (depthBeforePop : Nat) (snap : EdgeSnapshot) : EdgeSnapshot :=
  if depthBeforePop ≤ snap.2 then (restoreScopeMoves snap.1 frame, depthBeforePop - 1) else snap

def replayRecord (frame : MoveFrame) (depthBeforePop : Nat) (record : LoopEdgeStates) : LoopEdgeStates :=
  { record with
    breakSnaps := record.breakSnaps.map (replay frame depthBeforePop)
    continueSnaps := record.continueSnaps.map (replay frame depthBeforePop) }

def popScopeFrame (state : OwnershipState) : OwnershipState :=
  match state.movedScopeStack with
  | [] => state
  | frame :: outer =>
    { movedVars := restoreScopeMoves state.movedVars frame
      movedScopeStack := outer
      loopBreakStack := state.loopBreakStack.map (replayRecord frame (outer.length + 1)) }

end OwnershipState

/-- The moves one arm leaves, whether it diverges and how. -/
abbrev Arm (Moves : Type) := Moves × Bool × DivergenceKinds

section Arms

variable {Moves : Type}

/-- The moves of the arms of an `if` that its join sees. -/
def joinedBranches (first second : Arm Moves) : List Moves :=
  match first.2.1, second.2.1 with
  | true, true =>
    if first.2.2.hasOther && !second.2.2.hasOther then [first.1]
    else if second.2.2.hasOther && !first.2.2.hasOther then [second.1]
    else if !first.2.2.hasOther && !second.2.2.hasOther then [first.1]
    else [first.1, second.1]
  | true, false => [second.1]
  | false, true => [first.1]
  | false, false => [first.1, second.1]

/-- The moves of the arms of a `match` that its join sees. -/
def joinedArms (arms : List (Arm Moves)) : List Moves :=
  let live := arms.filter fun arm => !arm.2.1
  let nonpanic := arms.filter fun arm => arm.2.2.hasOther
  if !live.isEmpty then live.map Prod.fst
  else if !nonpanic.isEmpty then nonpanic.map Prod.fst
  else arms.map Prod.fst

def unionAll (union : Moves → Moves → Moves) : List Moves → Option Moves
  | [] => none
  | first :: rest => some (rest.foldl union first)

end Arms

def mergedEdgeMoves (snaps : List EdgeSnapshot) : Option MoveMap :=
  unionAll unionMoveMaps (snaps.map Prod.fst)

namespace LoopEdgeStates

def mergedMoves (record : LoopEdgeStates) : Option MoveMap × Option MoveMap :=
  (mergedEdgeMoves record.breakSnaps, mergedEdgeMoves record.continueSnaps)

end LoopEdgeStates

namespace OwnershipState

def mergeBranchMoves (state : OwnershipState) (thenArm elseArm : Arm MoveMap) : OwnershipState :=
  { state with
    movedVars := (unionAll unionMoveMaps (joinedBranches thenArm elseArm)).getD MoveMap.new }

def mergeArmMoves (state : OwnershipState) (arms : List (Arm MoveMap)) : OwnershipState :=
  { state with movedVars := (unionAll unionMoveMaps (joinedArms arms)).getD MoveMap.new }

end OwnershipState

end Rue.Air
