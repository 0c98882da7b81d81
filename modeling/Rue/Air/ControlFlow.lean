import Rue.Air.OwnershipState

/-! How the analysis of one body drives the ownership state: every construct
opens one scope, keeps what its join will need, and closes the scope again. -/

namespace Rue.Air

/-- What the analysis of a construct keeps while its inner scope is open. -/
inductive Construct (Moves : Type) where
  | block
  | thenArm (savedMoves : Moves)
  | elseArm (thenMoves : Arm Moves)
  | matchArm (movesBeforeArms : Moves) (armMoveStates : List (Arm Moves))
  | infiniteLoop
  | whileLoop (movesAfterCondition : Moves)

inductive Operation where
  | pushScope
  | popScope
  | bindFresh (symbol : Spur)
  | markPathMoved (symbol : Spur) (path : FieldPath) (span : Span)
  | markPathReinitialized (symbol : Spur) (path : FieldPath)
  | assign (symbol : Spur)
  | enterThen
  | enterElse (diverges : Bool) (divergence : DivergenceKinds)
  | leaveBranch (diverges : Bool) (divergence : DivergenceKinds)
  | enterMatch
  | nextArm (diverges : Bool) (divergence : DivergenceKinds)
  | leaveMatch (diverges : Bool) (divergence : DivergenceKinds)
  | enterLoop
  | enterWhile
  | leaveLoop
  | recordBreak
  | recordContinue

namespace OwnershipState

def markPathMoved (state : OwnershipState) (symbol : Spur) (path : FieldPath) (span : Span) : OwnershipState :=
  { state with
    movedVars := state.movedVars.insert symbol ((state.movedVars.getOrDefault symbol).markPathMoved path span) }

def markPathReinitialized (state : OwnershipState) (symbol : Spur) (path : FieldPath) : OwnershipState :=
  match state.movedVars symbol with
  | none => state
  | some moves =>
    let marked := moves.markPathReinitialized path
    { state with
      movedVars :=
        if marked.isEmpty then state.movedVars.remove symbol else state.movedVars.insert symbol marked }

/-- Assignment to a whole variable resets its move state. -/
def assign (state : OwnershipState) (symbol : Spur) : OwnershipState :=
  { state with movedVars := state.movedVars.remove symbol }

def setMoves (state : OwnershipState) (moves : MoveMap) : OwnershipState :=
  { state with movedVars := moves }

/-- The innermost loop's scope is already open when its record is pushed. -/
def pushLoop (state : OwnershipState) : OwnershipState :=
  { state with
    loopBreakStack := LoopEdgeStates.enteredAt (state.movedScopeStack.length - 1) :: state.loopBreakStack }

def recordEdge (state : OwnershipState) (record : LoopEdgeStates → MoveMap → Nat → LoopEdgeStates) :
    Option OwnershipState :=
  match state.loopBreakStack with
  | [] => none
  | innermost :: enclosing =>
    some { state with
      loopBreakStack := record innermost state.movedVars state.movedScopeStack.length :: enclosing }

end OwnershipState

/-- The state of one body's analysis, with the joined edge states of the loops
it has left so far, the latest first. -/
structure Analysis where
  ownership : OwnershipState
  constructs : List (Construct MoveMap)
  taken : List (Option MoveMap × Option MoveMap)

namespace Analysis

def initial : Analysis := { ownership := OwnershipState.default, constructs := [], taken := [] }

def enter (state : Analysis) (construct : Construct MoveMap) : Analysis :=
  { state with ownership := state.ownership.pushScopeFrame, constructs := construct :: state.constructs }

def leaveLoop (state : Analysis) (exit : MoveMap → Option MoveMap → MoveMap) (enclosing : List (Construct MoveMap)) :
    Option Analysis :=
  let popped := state.ownership.popScopeFrame
  match popped.loopBreakStack with
  | [] => none
  | record :: records =>
    let merged := record.mergedMoves
    some {
      ownership := { popped with movedVars := exit popped.movedVars merged.1, loopBreakStack := records }
      constructs := enclosing
      taken := merged :: state.taken }

/-- One operation. An operation that does not fit the open construct, or an
edge outside every loop, has no successor. -/
def step (state : Analysis) : Operation → Option Analysis
  | .pushScope => some (state.enter .block)
  | .popScope =>
    match state.constructs with
    | .block :: enclosing => some { state with ownership := state.ownership.popScopeFrame, constructs := enclosing }
    | _ => none
  | .bindFresh symbol => some { state with ownership := state.ownership.bindFresh symbol }
  | .markPathMoved symbol path span =>
    some { state with ownership := state.ownership.markPathMoved symbol path span }
  | .markPathReinitialized symbol path =>
    some { state with ownership := state.ownership.markPathReinitialized symbol path }
  | .assign symbol => some { state with ownership := state.ownership.assign symbol }
  | .enterThen => some (state.enter (.thenArm state.ownership.movedVars))
  | .enterElse diverges divergence =>
    match state.constructs with
    | .thenArm saved :: enclosing =>
      let popped := state.ownership.popScopeFrame
      let next := { state with ownership := popped.setMoves saved, constructs := enclosing }
      some (next.enter (.elseArm (popped.movedVars, diverges, divergence)))
    | _ => none
  | .leaveBranch diverges divergence =>
    match state.constructs with
    | .elseArm thenMoves :: enclosing =>
      let popped := state.ownership.popScopeFrame
      some { state with
        ownership := popped.mergeBranchMoves thenMoves (popped.movedVars, diverges, divergence)
        constructs := enclosing }
    | _ => none
  | .enterMatch => some (state.enter (.matchArm state.ownership.movedVars []))
  | .nextArm diverges divergence =>
    match state.constructs with
    | .matchArm before arms :: enclosing =>
      let popped := state.ownership.popScopeFrame
      let next := { state with ownership := popped.setMoves before, constructs := enclosing }
      some (next.enter (.matchArm before (arms ++ [(popped.movedVars, diverges, divergence)])))
    | _ => none
  | .leaveMatch diverges divergence =>
    match state.constructs with
    | .matchArm _ arms :: enclosing =>
      let popped := state.ownership.popScopeFrame
      some { state with
        ownership := popped.mergeArmMoves (arms ++ [(popped.movedVars, diverges, divergence)])
        constructs := enclosing }
    | _ => none
  | .enterLoop =>
    let entered := state.enter .infiniteLoop
    some { entered with ownership := entered.ownership.pushLoop }
  | .enterWhile =>
    let entered := state.enter (.whileLoop state.ownership.movedVars)
    some { entered with ownership := entered.ownership.pushLoop }
  | .leaveLoop =>
    match state.constructs with
    | .infiniteLoop :: enclosing =>
      state.leaveLoop (fun fallThrough breaks => breaks.getD fallThrough) enclosing
    | .whileLoop afterCondition :: enclosing =>
      state.leaveLoop
        (fun _ breaks => (breaks.map (unionMoveMaps afterCondition)).getD afterCondition) enclosing
    | _ => none
  | .recordBreak => do
    let ownership ← state.ownership.recordEdge LoopEdgeStates.recordBreak
    some { state with ownership }
  | .recordContinue => do
    let ownership ← state.ownership.recordEdge LoopEdgeStates.recordContinue
    some { state with ownership }

def run (state : Analysis) : List Operation → Option Analysis
  | [] => some state
  | operation :: rest => (state.step operation).bind fun next => next.run rest

end Analysis

end Rue.Air
