import Mathlib
import Rue.Proofs.Ownership.Constructs

/-! Runs of the ownership operations keep the name-keyed state in agreement with
the bindings, as long as no declaration hides a name whose state has changed
since an edge was recorded in the same scope. -/

namespace Rue.Proofs.Ownership
open Rue.Air

/-- A left loop's merged moves give every visible name the join of its own
binding's states at the edges. -/
def TakenAgrees (taken : Option MoveMap × Option MoveMap) (join : LoopJoin) : Prop :=
  Option.Rel (fun moves store => ∀ symbol, moves.getOrDefault symbol = store (join.visible symbol))
    taken.1 join.breaks ∧
  Option.Rel (fun moves store => ∀ symbol, moves.getOrDefault symbol = store (join.visible symbol))
    taken.2 join.continues

theorem Agrees.visible_rel {outermost : Scope} {frames : List MoveFrame} {scopes : List Scope}
    {breaks : Option MoveMap} {joined : Option Store}
    (agree : Option.Rel (fun moves store => Agrees outermost store frames scopes moves) breaks joined) :
    Option.Rel (fun moves store => ∀ symbol,
      moves.getOrDefault symbol = store (denotes (scopes.flatten ++ outermost) symbol)) breaks joined := by
  cases agree with
  | none => exact .none
  | some agrees => exact .some agrees.visible

/-- A declaration is harmless when its scope declares the name already, or when
every snapshot taken in the scope gives the name the state it has now. -/
def hidesUnchanged (state : OwnershipState) (symbol : Spur) : Bool :=
  match state.movedScopeStack with
  | [] => true
  | frame :: outer =>
    decide (symbol ∈ frame.map Prod.fst) ||
      state.loopBreakStack.all fun record =>
        (record.breakSnaps ++ record.continueSnaps).all fun snap =>
          decide (snap.2 ≠ outer.length + 1) ||
            decide (snap.1.getOrDefault symbol = state.movedVars.getOrDefault symbol)

def cleanStep (state : OwnershipState) : Operation → Bool
  | .bindFresh symbol => hidesUnchanged state symbol
  | _ => true

def cleanRun (state : Analysis) : List Operation → Bool
  | [] => true
  | operation :: rest =>
    cleanStep state.ownership operation &&
      match state.step operation with
      | none => true
      | some next => cleanRun next rest

structure Simulates (state : Analysis) (reference : Reference) : Prop where
  moves : Agrees reference.outermost reference.store state.ownership.movedScopeStack reference.scopes
    state.ownership.movedVars
  declared : Declared state.ownership.movedScopeStack reference.scopes
  distinct : Distinct reference.serial reference.declarations
  constructs : ConstructsAgree reference.outermost state.ownership.movedScopeStack reference.scopes
    state.constructs reference.constructs
  frames : state.ownership.loopBreakStack.map LoopEdgeStates.firstUnwoundFrame = loopFrames state.constructs
  edges : List.Forall₂ (RecordAgrees reference.outermost state.ownership.movedScopeStack reference.scopes)
    state.ownership.loopBreakStack reference.loops
  taken : List.Forall₂ TakenAgrees state.taken reference.taken

namespace Simulates

variable {state : Analysis} {reference : Reference}

theorem initial : Simulates Analysis.initial Reference.initial where
  moves := .outside fun _ => rfl
  declared := .nil
  distinct := ⟨List.nodup_nil, by simp [Reference.initial, Reference.declarations]⟩
  constructs := .nil
  frames := rfl
  edges := .nil
  taken := .nil

theorem records_below (simulates : Simulates state reference) :
    ∀ record ∈ state.ownership.loopBreakStack,
      record.firstUnwoundFrame < state.ownership.movedScopeStack.length := by
  intro record member
  have listed := List.mem_map_of_mem (f := LoopEdgeStates.firstUnwoundFrame) member
  rw [simulates.frames] at listed
  rw [← simulates.constructs.length]
  exact loopFrames_lt _ _ listed

theorem update (simulates : Simulates state reference) {symbol : Spur} {changed : MoveMap}
    {change : VariableMoveState → VariableMoveState}
    (marked : ∀ other, changed.getOrDefault other =
      if other = symbol then change (state.ownership.movedVars.getOrDefault symbol)
      else state.ownership.movedVars.getOrDefault other) :
    Simulates { state with ownership := { state.ownership with movedVars := changed } }
      (reference.update symbol change) where
  moves := by
    apply simulates.moves.update simulates.declared simulates.distinct
    intro other
    rw [marked other, simulates.moves.visible symbol]
    rfl
  declared := simulates.declared
  distinct := simulates.distinct
  constructs := simulates.constructs
  frames := simulates.frames
  edges := simulates.edges
  taken := simulates.taken

variable {construct : Construct MoveMap} {other : Construct Store}

theorem enter (simulates : Simulates state reference)
    (agrees : ConstructAgrees (fun store moves => Agrees reference.outermost store
      state.ownership.movedScopeStack reference.scopes moves) construct other)
    (plain : loopFrames (construct :: state.constructs) = loopFrames state.constructs) :
    Simulates (state.enter construct) (reference.enter other) where
  moves := simulates.moves.enter
  declared := .cons (by simp) simulates.declared
  distinct := simulates.distinct
  constructs := .cons agrees simulates.constructs
  frames := simulates.frames.trans plain.symm
  edges := simulates.edges.imp fun _ _ agree => agree.enter
  taken := simulates.taken

theorem enterLoop (simulates : Simulates state reference)
    (agrees : ConstructAgrees (fun store moves => Agrees reference.outermost store
      state.ownership.movedScopeStack reference.scopes moves) construct other)
    (loop : loopFrames (construct :: state.constructs) = state.constructs.length :: loopFrames state.constructs) :
    Simulates { state.enter construct with ownership := (state.enter construct).ownership.pushLoop }
      { reference.enter other with loops := ([], []) :: reference.loops } where
  moves := simulates.moves.enter
  declared := .cons (by simp) simulates.declared
  distinct := simulates.distinct
  constructs := .cons agrees simulates.constructs
  frames := by
    refine Eq.trans ?_ loop.symm
    exact congrArg₂ List.cons simulates.constructs.length.symm simulates.frames
  edges := .cons ⟨.empty, .empty⟩ (simulates.edges.imp fun _ _ agree => agree.enter)
  taken := simulates.taken

variable {enclosing : List (Construct MoveMap)}

/-- What is known when the innermost construct is about to be left. -/
theorem innermost (simulates : Simulates state reference)
    (opened : state.constructs = construct :: enclosing) :
    ∃ other others, reference.constructs = other :: others ∧
      ConstructAgrees (fun store moves => Agrees reference.outermost store
        state.ownership.popScopeFrame.movedScopeStack reference.scopes.tail moves) construct other ∧
      Agrees reference.outermost reference.store state.ownership.popScopeFrame.movedScopeStack
        reference.scopes.tail state.ownership.popScopeFrame.movedVars := by
  obtain ⟨⟨current, stack, loops⟩, _, taken⟩ := state
  obtain ⟨store, scopes, outermost, serial, edges, _, joins⟩ := reference
  obtain ⟨moves, _, _, constructs, _, _, _⟩ := simulates
  simp only at opened moves constructs
  subst opened
  cases constructs with
  | cons agrees rest => exact ⟨_, _, rfl, agrees, moves.leave⟩

theorem leave (simulates : Simulates state reference)
    {others : List (Construct Store)}
    {moves : MoveMap} {store : Store} (opened : state.constructs = construct :: enclosing)
    (opened' : reference.constructs = other :: others)
    (plain : loopFrames (construct :: enclosing) = loopFrames enclosing)
    (agrees : Agrees reference.outermost store state.ownership.popScopeFrame.movedScopeStack
      reference.scopes.tail moves) :
    Simulates { state with ownership := state.ownership.popScopeFrame.setMoves moves, constructs := enclosing }
      (reference.close store others) := by
  obtain ⟨⟨current, stack, loops⟩, _, taken⟩ := state
  obtain ⟨_, scopes, outermost, serial, edges, _, joins⟩ := reference
  obtain ⟨_, declared, distinct, constructs, frames, agree, joined⟩ := simulates
  simp only at opened opened' agrees constructs declared distinct frames agree joined
  subst opened opened'
  cases constructs with
  | @cons frame stack scope scopes _ _ _ _ _ rest =>
    have below : ∀ record ∈ loops, record.firstUnwoundFrame < stack.length := by
      intro record member
      have listed := List.mem_map_of_mem (f := LoopEdgeStates.firstUnwoundFrame) member
      rw [frames, plain] at listed
      rw [← rest.length]
      exact loopFrames_lt _ _ listed
    refine ⟨agrees, (List.forall₂_cons.mp declared).2, ?_, rest, ?_, ?_, joined⟩
    · rw [Reference.declarations, List.flatten_cons, List.append_assoc] at distinct
      exact distinct.append_right
    · rw [plain] at frames
      simp only [OwnershipState.setMoves, OwnershipState.popScopeFrame, List.map_map]
      exact frames
    · simp only [OwnershipState.setMoves, OwnershipState.popScopeFrame, Reference.close]
      apply List.forall₂_map_left_iff.mpr
      have together := (List.forall₂_and_left loops edges).mpr ⟨below, agree⟩
      exact together.imp fun _ _ both => both.2.leave both.1

/-- Leaving a loop takes its record: the merged moves agree with the joins over
the loop's edges. -/
theorem leaveLoop (simulates : Simulates state reference)
    {others : List (Construct Store)}
    {exit : MoveMap → Option MoveMap → MoveMap} {exitStore : Store → Option Store → Store} {next : Analysis}
    (opened : state.constructs = construct :: enclosing) (opened' : reference.constructs = other :: others)
    (loop : loopFrames (construct :: enclosing) = enclosing.length :: loopFrames enclosing)
    (exits : ∀ store moves breaks joined,
      Agrees reference.outermost store state.ownership.popScopeFrame.movedScopeStack reference.scopes.tail moves →
      Option.Rel (fun moves store => Agrees reference.outermost store
        state.ownership.popScopeFrame.movedScopeStack reference.scopes.tail moves) breaks joined →
      Agrees reference.outermost (exitStore store joined) state.ownership.popScopeFrame.movedScopeStack
        reference.scopes.tail (exit moves breaks))
    (left : state.leaveLoop exit enclosing = some next) :
    ∃ last, reference.leaveLoop exitStore others = some last ∧ Simulates next last := by
  obtain ⟨⟨current, stack, loops⟩, _, taken⟩ := state
  obtain ⟨store, scopes, outermost, serial, edges, _, joins⟩ := reference
  obtain ⟨moves, declared, distinct, constructs, frames, agree, joined⟩ := simulates
  simp only at opened opened' moves constructs declared distinct frames agree joined exits
  subst opened opened'
  cases constructs with
  | @cons frame stack scope scopes _ _ _ _ _ rest =>
    rw [loop] at frames
    cases agree with
    | nil => cases frames
    | @cons record edge records edges first agree =>
      obtain ⟨position, frames⟩ := List.cons_eq_cons.mp frames
      rw [rest.length] at position
      obtain ⟨breaks, continues⟩ := first
      rw [position] at breaks continues
      cases left
      refine ⟨_, rfl, ?_⟩
      have merged := exits store _ _ _ moves.leave breaks.merged
      refine ⟨merged, (List.forall₂_cons.mp declared).2, ?_, rest, ?_, ?_, .cons ⟨?_, ?_⟩ joined⟩
      · rw [Reference.declarations, List.flatten_cons, List.append_assoc] at distinct
        exact distinct.append_right
      · rw [List.map_map]
        exact frames
      · apply List.forall₂_map_left_iff.mpr
        have below : ∀ record ∈ records, record.firstUnwoundFrame < stack.length := by
          intro record member
          have listed := List.mem_map_of_mem (f := LoopEdgeStates.firstUnwoundFrame) member
          rw [frames] at listed
          rw [← rest.length]
          exact loopFrames_lt _ _ listed
        have together := (List.forall₂_and_left records edges).mpr ⟨below, agree⟩
        exact together.imp fun _ _ both => both.2.leave both.1
      · exact Agrees.visible_rel breaks.merged
      · exact Agrees.visible_rel continues.merged

theorem recordEdge (simulates : Simulates state reference)
    (record : LoopEdgeStates → MoveMap → Nat → LoopEdgeStates)
    (recordStore : List Store × List Store → List Store × List Store) {next : OwnershipState}
    (same : ∀ loop moves depth, (record loop moves depth).firstUnwoundFrame = loop.firstUnwoundFrame)
    (recorded : ∀ loop edges,
      RecordAgrees reference.outermost state.ownership.movedScopeStack reference.scopes loop edges →
      loop.firstUnwoundFrame < state.ownership.movedScopeStack.length →
      SnapshotAgrees reference.outermost reference.store state.ownership.movedScopeStack reference.scopes
        (state.ownership.movedVars, state.ownership.movedScopeStack.length) →
      RecordAgrees reference.outermost state.ownership.movedScopeStack reference.scopes
        (record loop state.ownership.movedVars state.ownership.movedScopeStack.length) (recordStore edges))
    (stepped : state.ownership.recordEdge record = some next) :
    ∃ last, reference.recordEdge recordStore = some last ∧ Simulates { state with ownership := next } last := by
  have below := simulates.records_below
  obtain ⟨⟨current, stack, loops⟩, _, taken⟩ := state
  obtain ⟨store, scopes, outermost, serial, edges, _, joins⟩ := reference
  obtain ⟨moves, declared, distinct, constructs, frames, agree, joined⟩ := simulates
  simp only at moves constructs declared distinct frames agree joined recorded below
  cases agree with
  | nil => cases stepped
  | @cons loop edge loops edges first rest =>
    cases stepped
    refine ⟨_, rfl, moves, declared, distinct, constructs, ?_, ?_, joined⟩
    · rw [← frames]
      exact congrArg (· :: _) (same loop _ _)
    · refine .cons (recorded loop edge first (below loop (by simp)) ?_) rest
      cases moves with
      | outside => exact absurd (below loop (by simp)) (Nat.not_lt_zero _)
      | inside _ closed => exact .here rfl closed

theorem declare (simulates : Simulates state reference) {symbol : Spur}
    (safe : hidesUnchanged state.ownership symbol = true) :
    Simulates { state with ownership := state.ownership.bindFresh symbol } (reference.declare symbol) := by
  obtain ⟨⟨current, stack, loops⟩, opened, taken⟩ := state
  obtain ⟨store, scopes, outermost, serial, edges, others, joins⟩ := reference
  obtain ⟨moves, declared, distinct, constructs, frames, agree, joined⟩ := simulates
  simp only at moves constructs declared distinct frames agree joined
  have moves' := moves
  cases moves' with
  | outside visible =>
    cases constructs
    obtain rfl : loops = [] := List.map_eq_nil_iff.mp frames
    cases agree
    refine ⟨.outside ?_, .nil, distinct.cons symbol, .nil, rfl, .nil, joined⟩
    intro other
    simp only [OwnershipState.bindFresh, Reference.declare]
    rw [getOrDefault_remove, denotes]
    by_cases same : other = symbol
    · rw [if_pos same, if_pos same.symm]
      exact (if_pos rfl).symm
    · rw [if_neg same, if_neg (fun equal => same equal.symm), visible other]
      exact (if_neg (distinct.fresh_denotes other)).symm
  | @inside frame stack scope scopes _ visible closed =>
    refine ⟨moves.declare distinct, ?_, distinct.cons symbol, ?_, frames, ?_, joined⟩
    · obtain ⟨names, rest⟩ := List.forall₂_cons.mp declared
      refine .cons ?_ rest
      intro other
      simp [names other, or_comm]
    · cases constructs with
      | cons agrees rest => exact .cons agrees rest
    · have each : ∀ record ∈ loops, symbol ∈ frame.map Prod.fst ∨
          ∀ snap ∈ record.breakSnaps ++ record.continueSnaps, snap.2 = stack.length + 1 →
            snap.1.getOrDefault symbol = current.getOrDefault symbol := by
        intro record member
        simp only [hidesUnchanged, Bool.or_eq_true, decide_eq_true_eq, List.all_eq_true] at safe
        exact safe.imp_right fun unchanged snap inside tag =>
          (unchanged record member snap inside).resolve_left (fun other => other tag)
      have together := (List.forall₂_and_left loops edges).mpr ⟨each, agree⟩
      exact together.imp fun _ _ both => both.2.declare both.1

/-- One operation, given that a declaration hides no name whose state has
changed since an edge of its scope. -/
theorem step (simulates : Simulates state reference) {operation : Operation} {next : Analysis}
    (stepped : state.step operation = some next) (clean : cleanStep state.ownership operation = true) :
    ∃ last, reference.step operation = some last ∧ Simulates next last := by
  cases operation with
  | pushScope =>
    cases stepped
    exact ⟨_, rfl, simulates.enter .block rfl⟩
  | popScope =>
    simp only [Analysis.step] at stepped
    split at stepped
    next enclosing opened =>
      cases stepped
      obtain ⟨other, others, opened', agrees, moves⟩ := simulates.innermost opened
      cases agrees
      refine ⟨reference.close reference.store others, ?_, simulates.leave opened opened' rfl moves⟩
      simp only [Reference.step, opened']
    next => cases stepped
  | bindFresh symbol =>
    cases stepped
    exact ⟨_, rfl, simulates.declare clean⟩
  | markPathMoved symbol path span =>
    cases stepped
    exact ⟨_, rfl, simulates.update fun other => getOrDefault_insert _ _ _ _⟩
  | markPathReinitialized symbol path =>
    cases stepped
    obtain ⟨changed, marked, values⟩ := markPathReinitialized_moves state.ownership symbol path
    rw [marked]
    exact ⟨_, rfl, simulates.update values⟩
  | assign symbol =>
    cases stepped
    exact ⟨_, rfl, simulates.update fun other => getOrDefault_remove _ _ _⟩
  | enterThen =>
    cases stepped
    exact ⟨_, rfl, simulates.enter (.thenArm simulates.moves) rfl⟩
  | enterElse diverges divergence =>
    simp only [Analysis.step] at stepped
    split at stepped
    next saved enclosing opened =>
      cases stepped
      obtain ⟨other, others, opened', agrees, moves⟩ := simulates.innermost opened
      cases agrees with
      | thenArm before =>
        have left := simulates.leave opened opened' rfl before
        refine ⟨_, ?_, left.enter (.elseArm moves) rfl⟩
        simp only [Reference.step, opened']
    next => cases stepped
  | leaveBranch diverges divergence =>
    simp only [Analysis.step] at stepped
    split at stepped
    next thenMoves enclosing opened =>
      cases stepped
      obtain ⟨other, others, opened', agrees, moves⟩ := simulates.innermost opened
      cases agrees with
      | @elseArm first store flags before =>
        refine ⟨_, ?_, simulates.leave opened opened' rfl (before.branches moves flags _ reference.store)⟩
        simp only [Reference.step, opened']
    next => cases stepped
  | enterMatch =>
    cases stepped
    exact ⟨_, rfl, simulates.enter (.matchArm simulates.moves .nil) rfl⟩
  | nextArm diverges divergence =>
    simp only [Analysis.step] at stepped
    split at stepped
    next before arms enclosing opened =>
      cases stepped
      obtain ⟨other, others, opened', agrees, moves⟩ := simulates.innermost opened
      cases agrees with
      | matchArm saved captured =>
        have left := simulates.leave opened opened' rfl saved
        refine ⟨_, ?_, left.enter (.matchArm saved (captured.snoc moves (diverges, divergence))) rfl⟩
        simp only [Reference.step, opened']
    next => cases stepped
  | leaveMatch diverges divergence =>
    simp only [Analysis.step] at stepped
    split at stepped
    next before arms enclosing opened =>
      cases stepped
      obtain ⟨other, others, opened', agrees, moves⟩ := simulates.innermost opened
      cases agrees with
      | matchArm saved captured =>
        have all := captured.snoc moves (diverges, divergence)
        refine ⟨_, ?_, simulates.leave opened opened' rfl (all.join reference.store (by simp))⟩
        simp only [Reference.step, opened']
    next => cases stepped
  | enterLoop =>
    cases stepped
    exact ⟨_, rfl, simulates.enterLoop .infiniteLoop rfl⟩
  | enterWhile =>
    cases stepped
    exact ⟨_, rfl, simulates.enterLoop (.whileLoop simulates.moves) rfl⟩
  | leaveLoop =>
    simp only [Analysis.step] at stepped
    split at stepped
    next enclosing opened =>
      obtain ⟨other, others, opened', agrees, _⟩ := simulates.innermost opened
      cases agrees
      simp only [Reference.step, opened']
      refine simulates.leaveLoop opened opened' rfl ?_ stepped
      intro store moves breaks joined fallThrough edges
      cases edges with
      | none => exact fallThrough
      | some agrees => exact agrees
    next afterCondition enclosing opened =>
      obtain ⟨other, others, opened', agrees, _⟩ := simulates.innermost opened
      cases agrees with
      | whileLoop saved =>
        simp only [Reference.step, opened']
        refine simulates.leaveLoop opened opened' rfl ?_ stepped
        intro store moves breaks joined _ edges
        cases edges with
        | none => exact saved
        | some agrees => exact saved.union agrees
    next => cases stepped
  | recordBreak =>
    obtain ⟨ownership, recorded, same⟩ := Option.bind_eq_some_iff.mp stepped
    cases same
    refine simulates.recordEdge LoopEdgeStates.recordBreak _ (fun _ _ _ => rfl) ?_ recorded
    exact fun loop edges agree below snap => ⟨agree.1.record below snap, agree.2⟩
  | recordContinue =>
    obtain ⟨ownership, recorded, same⟩ := Option.bind_eq_some_iff.mp stepped
    cases same
    refine simulates.recordEdge LoopEdgeStates.recordContinue _ (fun _ _ _ => rfl) ?_ recorded
    exact fun loop edges agree below snap => ⟨agree.1, agree.2.record below snap⟩

theorem run {operations : List Operation} (simulates : Simulates state reference) {last : Analysis}
    (ran : state.run operations = some last) (clean : cleanRun state operations = true) :
    ∃ final, reference.run operations = some final ∧ Simulates last final := by
  induction operations generalizing state reference with
  | nil =>
    cases ran
    exact ⟨_, rfl, simulates⟩
  | cons operation rest ih =>
    obtain ⟨next, stepped, ran⟩ := Option.bind_eq_some_iff.mp ran
    simp only [cleanRun, stepped, Bool.and_eq_true] at clean
    obtain ⟨middle, stepped', simulates⟩ := simulates.step stepped clean.1
    obtain ⟨final, ran', simulates⟩ := ih simulates ran clean.2
    refine ⟨final, ?_, simulates⟩
    simp only [Reference.run, stepped', Option.bind_some]
    exact ran'

end Simulates

/-- In a run whose declarations all hide unchanged states, `moved_vars` gives
every visible name the state of its binding, and every loop that was left gave
the visible names the joins of their bindings' states at its edges. -/
theorem moved_vars_agree_with_bindings (operations : List Operation) {state : Analysis}
    (ran : Analysis.initial.run operations = some state)
    (clean : cleanRun Analysis.initial operations = true) :
    ∃ reference, Reference.initial.run operations = some reference ∧
      (∀ symbol, state.ownership.movedVars.getOrDefault symbol = reference.store (reference.binding symbol)) ∧
      List.Forall₂ TakenAgrees state.taken reference.taken := by
  obtain ⟨reference, ran', simulates⟩ := Simulates.initial.run ran clean
  exact ⟨reference, ran', simulates.moves.visible, simulates.taken⟩

/-- A loop whose body moves an outer variable and breaks, and then, in a run
where it did not, declares a variable of its own before it breaks again. -/
def breakBeforeDeclaring (moved declared : Spur) : List Operation :=
  [.enterLoop, .enterThen, .markPathMoved moved [] ⟨0, 1, 2⟩, .recordBreak, .enterElse true .exit,
    .leaveBranch false .none, .bindFresh declared, .recordBreak, .leaveLoop]

theorem declaring_another_name_agrees :
    ∃ state reference, Analysis.initial.run (breakBeforeDeclaring 0 1) = some state ∧
      Reference.initial.run (breakBeforeDeclaring 0 1) = some reference ∧
      List.Forall₂ TakenAgrees state.taken reference.taken := by
  obtain ⟨state, ran⟩ := Option.isSome_iff_exists.mp
    (show (Analysis.initial.run (breakBeforeDeclaring 0 1)).isSome = true by decide)
  obtain ⟨reference, ran', _, taken⟩ := moved_vars_agree_with_bindings (breakBeforeDeclaring 0 1) ran
    (by decide)
  exact ⟨state, reference, ran, ran', taken⟩

/-- When the later declaration hides the moved variable, the move is lost: after
the loop the variable counts as not moved. -/
theorem shadowing_after_break_loses_move :
    ¬ ∀ operations state reference, Analysis.initial.run operations = some state →
      Reference.initial.run operations = some reference →
      (∀ symbol, state.ownership.movedVars.getOrDefault symbol = reference.store (reference.binding symbol)) ∧
        List.Forall₂ TakenAgrees state.taken reference.taken := by
  intro claim
  obtain ⟨state, ran⟩ := Option.isSome_iff_exists.mp
    (show (Analysis.initial.run (breakBeforeDeclaring 0 0)).isSome = true by decide)
  obtain ⟨reference, ran'⟩ := Option.isSome_iff_exists.mp
    (show (Reference.initial.run (breakBeforeDeclaring 0 0)).isSome = true by decide)
  have lost : (Analysis.initial.run (breakBeforeDeclaring 0 0)).all
      (fun state => decide (state.ownership.movedVars.getOrDefault 0 = VariableMoveState.default)) = true := by
    decide
  have moved : (Reference.initial.run (breakBeforeDeclaring 0 0)).all
      (fun reference => decide (reference.store (reference.binding 0) ≠ VariableMoveState.default)) = true := by
    decide
  rw [ran] at lost
  rw [ran'] at moved
  have same := (claim _ state reference ran ran').1 0
  exact of_decide_eq_true moved (same.symm.trans (of_decide_eq_true lost))

end Rue.Proofs.Ownership
