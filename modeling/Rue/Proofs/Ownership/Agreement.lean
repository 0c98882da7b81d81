import Rue.Air.ControlFlow

/-! The reference account of moves: every declaration is a binding of its own,
names are resolved by the open scopes, and an edge of a loop keeps the move
states of all bindings. -/

namespace Rue.Proofs.Ownership
open Rue.Air

inductive Binding where
  | parameter (symbol : Spur)
  | declared (serial : Nat)
  deriving DecidableEq

/-- One scope's declarations, the latest first. -/
abbrev Scope := List (Spur × Binding)

/-- The binding a name denotes under some declarations, the latest first. -/
def denotes : Scope → Spur → Binding
  | [], symbol => .parameter symbol
  | (name, binding) :: rest, symbol => if name = symbol then binding else denotes rest symbol

abbrev Store := Binding → VariableMoveState

namespace Store

def set (store : Store) (binding : Binding) (state : VariableMoveState) : Store :=
  fun other => if other = binding then state else store other

def join (first second : Store) : Store :=
  fun binding => VariableMoveState.mergeUnion (first binding) (second binding)

end Store

/-- What a loop's edges establish once the loop is left. -/
structure LoopJoin where
  breaks : Option Store
  continues : Option Store
  visible : Spur → Binding

structure Reference where
  store : Store
  scopes : List Scope
  outermost : Scope
  serial : Nat
  loops : List (List Store × List Store)
  constructs : List (Construct Store)
  taken : List LoopJoin

namespace Reference

def initial : Reference where
  store := fun _ => VariableMoveState.default
  scopes := []
  outermost := []
  serial := 0
  loops := []
  constructs := []
  taken := []

def declarations (state : Reference) : Scope := state.scopes.flatten ++ state.outermost

def binding (state : Reference) (symbol : Spur) : Binding := denotes state.declarations symbol

def declare (state : Reference) (symbol : Spur) : Reference :=
  let fresh := Binding.declared state.serial
  let declared := { state with
    store := state.store.set fresh VariableMoveState.default
    serial := state.serial + 1 }
  match state.scopes with
  | [] => { declared with outermost := (symbol, fresh) :: state.outermost }
  | scope :: outer => { declared with scopes := ((symbol, fresh) :: scope) :: outer }

def update (state : Reference) (symbol : Spur) (change : VariableMoveState → VariableMoveState) : Reference :=
  { state with
    store := state.store.set (state.binding symbol) (change (state.store (state.binding symbol))) }

def enter (state : Reference) (construct : Construct Store) : Reference :=
  { state with scopes := [] :: state.scopes, constructs := construct :: state.constructs }

def close (state : Reference) (store : Store) (enclosing : List (Construct Store)) : Reference :=
  { state with store, scopes := state.scopes.tail, constructs := enclosing }

def recordEdge (state : Reference) (record : List Store × List Store → List Store × List Store) : Option Reference :=
  match state.loops with
  | [] => none
  | innermost :: enclosing => some { state with loops := record innermost :: enclosing }

def leaveLoop (state : Reference) (exit : Store → Option Store → Store) (enclosing : List (Construct Store)) :
    Option Reference :=
  match state.loops with
  | [] => none
  | edges :: loops =>
    let breaks := unionAll Store.join edges.1
    let closed := state.close (exit state.store breaks) enclosing
    some { closed with
      loops
      taken := {
        breaks
        continues := unionAll Store.join edges.2
        visible := closed.binding } :: state.taken }

def step (state : Reference) : Operation → Option Reference
  | .pushScope => some (state.enter .block)
  | .popScope =>
    match state.constructs with
    | .block :: enclosing => some (state.close state.store enclosing)
    | _ => none
  | .bindFresh symbol => some (state.declare symbol)
  | .markPathMoved symbol path span => some (state.update symbol (·.markPathMoved path span))
  | .markPathReinitialized symbol path => some (state.update symbol (·.markPathReinitialized path))
  | .assign symbol => some (state.update symbol (fun _ => VariableMoveState.default))
  | .enterThen => some (state.enter (.thenArm state.store))
  | .enterElse diverges divergence =>
    match state.constructs with
    | .thenArm saved :: enclosing =>
      some ((state.close saved enclosing).enter (.elseArm (state.store, diverges, divergence)))
    | _ => none
  | .leaveBranch diverges divergence =>
    match state.constructs with
    | .elseArm thenStore :: enclosing =>
      let joined := joinedBranches thenStore (state.store, diverges, divergence)
      some (state.close ((unionAll Store.join joined).getD state.store) enclosing)
    | _ => none
  | .enterMatch => some (state.enter (.matchArm state.store []))
  | .nextArm diverges divergence =>
    match state.constructs with
    | .matchArm before arms :: enclosing =>
      some ((state.close before enclosing).enter
        (.matchArm before (arms ++ [(state.store, diverges, divergence)])))
    | _ => none
  | .leaveMatch diverges divergence =>
    match state.constructs with
    | .matchArm _ arms :: enclosing =>
      let joined := joinedArms (arms ++ [(state.store, diverges, divergence)])
      some (state.close ((unionAll Store.join joined).getD state.store) enclosing)
    | _ => none
  | .enterLoop =>
    let entered := state.enter .infiniteLoop
    some { entered with loops := ([], []) :: state.loops }
  | .enterWhile =>
    let entered := state.enter (.whileLoop state.store)
    some { entered with loops := ([], []) :: state.loops }
  | .leaveLoop =>
    match state.constructs with
    | .infiniteLoop :: enclosing =>
      state.leaveLoop (fun fallThrough breaks => breaks.getD fallThrough) enclosing
    | .whileLoop afterCondition :: enclosing =>
      state.leaveLoop (fun _ breaks => (breaks.map afterCondition.join).getD afterCondition) enclosing
    | _ => none
  | .recordBreak => state.recordEdge fun edges => (edges.1 ++ [state.store], edges.2)
  | .recordContinue => state.recordEdge fun edges => (edges.1, edges.2 ++ [state.store])

def run (state : Reference) : List Operation → Option Reference
  | [] => some state
  | operation :: rest => (state.step operation).bind fun next => next.run rest

end Reference

end Rue.Proofs.Ownership

/-! The join of move states is associative and idempotent, and the join of two
move maps is the join of the states they give each name. -/

namespace Rue.Proofs.Ownership
open Rue.Air VariableMoveState

namespace Join

theorem unionPartial_snoc (first second : List (FieldPath × Span)) (entry : FieldPath × Span) :
    unionPartial first (second ++ [entry]) = addPartial (unionPartial first second) entry := by
  simp only [unionPartial, List.foldl_append, List.foldl_cons, List.foldl_nil]

theorem unionPartial_covered (first second : List (FieldPath × Span))
    (covered : ∀ entry ∈ second, entry.1 ∈ first.map Prod.fst) : unionPartial first second = first := by
  induction second with
  | nil => rfl
  | cons entry rest ih =>
    rw [unionPartial, List.foldl_cons, addPartial, if_pos (covered entry (by simp))]
    exact ih (fun other member => covered other (by simp [member]))

theorem unionPartial_assoc (first second third : List (FieldPath × Span)) :
    unionPartial (unionPartial first second) third = unionPartial first (unionPartial second third) := by
  induction third generalizing second with
  | nil => rfl
  | cons entry rest ih =>
    change unionPartial (addPartial (unionPartial first second) entry) rest =
      unionPartial first (unionPartial (addPartial second entry) rest)
    rw [← ih, addPartial.eq_def second]
    split
    next known =>
      have below := (unionPartial_mem first second entry.1).mpr (Or.inr known)
      rw [addPartial, if_pos below]
    next unknown => rw [unionPartial_snoc]

theorem mergeAllPaths_assoc (first second third : VariableMoveState) :
    mergeAllPaths (mergeUnion first second) third = mergeAllPaths first (mergeUnion second third) := by
  simp only [mergeAllPaths, mergeUnion]
  by_cases one : first.fullMoveOnAllPaths = true <;> by_cases two : second.fullMoveOnAllPaths = true <;>
    by_cases three : third.fullMoveOnAllPaths = true <;> simp [one, two, three, Finset.inter_assoc]

end Join

open Join

theorem mergeUnion_assoc (first second third : VariableMoveState) :
    mergeUnion (mergeUnion first second) third = mergeUnion first (mergeUnion second third) := by
  apply VariableMoveState.ext
  · exact Option.or_assoc
  · exact Bool.and_assoc _ _ _
  · exact unionPartial_assoc _ _ _
  · exact mergeAllPaths_assoc _ _ _

theorem mergeUnion_self (state : VariableMoveState) : mergeUnion state state = state := by
  apply VariableMoveState.ext
  · exact Option.or_self
  · exact Bool.and_self _
  · apply unionPartial_covered
    exact fun entry member => List.mem_map.mpr ⟨entry, member, rfl⟩
  · simp only [mergeUnion, mergeAllPaths, Finset.inter_self, ite_self]

/-- Without a full and without a partial move nothing is known to be moved on
all paths either. -/
theorem eq_default_of_isEmpty {state : VariableMoveState} (empty : state.isEmpty = true) :
    state = VariableMoveState.default := by
  simp only [isEmpty, Bool.and_eq_true, Option.isNone_iff_eq_none, List.isEmpty_iff] at empty
  obtain ⟨noFull, noPartial⟩ := empty
  apply VariableMoveState.ext
  · exact noFull
  · cases onAll : state.fullMoveOnAllPaths with
    | false => rfl
    | true => exact absurd noFull (state.full onAll)
  · exact noPartial
  · apply Finset.eq_empty_of_forall_notMem
    intro path member
    have inside := state.subset path member
    simp [noPartial] at inside

section Maps

variable (moves : MoveMap) (symbol other : Spur)

theorem getOrDefault_insert (state : VariableMoveState) :
    (moves.insert symbol state).getOrDefault other = if other = symbol then state else moves.getOrDefault other := by
  simp only [MoveMap.getOrDefault, MoveMap.insert]
  split <;> rfl

theorem getOrDefault_remove :
    (moves.remove symbol).getOrDefault other =
      if other = symbol then VariableMoveState.default else moves.getOrDefault other := by
  simp only [MoveMap.getOrDefault, MoveMap.remove]
  split <;> rfl

theorem getOrDefault_restoreEntry (old : Option VariableMoveState) :
    (restoreEntry moves (symbol, old)).getOrDefault other =
      if other = symbol then old.getD VariableMoveState.default else moves.getOrDefault other := by
  cases old with
  | none => exact getOrDefault_remove moves symbol other
  | some state => exact getOrDefault_insert moves symbol other state

theorem getOrDefault_union (branch1 branch2 : MoveMap) :
    (unionMoveMaps branch1 branch2).getOrDefault symbol =
      mergeUnion (branch1.getOrDefault symbol) (branch2.getOrDefault symbol) := by
  rw [MoveMap.getOrDefault.eq_def (unionMoveMaps branch1 branch2), unionMoveMaps]
  split
  next known =>
    simp only
    split
    next empty => exact (eq_default_of_isEmpty empty).symm
    next moved => rfl
  next unknown =>
    simp only [Bool.or_eq_true, not_or, Bool.not_eq_true, Option.isSome_eq_false_iff, Option.isNone_iff_eq_none]
      at unknown
    simp only [MoveMap.getOrDefault, unknown.1, unknown.2, Option.getD_none]
    exact (mergeUnion_self _).symm

end Maps

/-- Two move maps that give every name the same state. -/
def Alike (first second : MoveMap) : Prop := ∀ symbol, first.getOrDefault symbol = second.getOrDefault symbol

namespace Alike

end Alike

namespace Frame

theorem restore_cons (moves : MoveMap) (entry : Spur × Option VariableMoveState) (frame : MoveFrame) :
    restoreScopeMoves moves (entry :: frame) = restoreEntry (restoreScopeMoves moves frame) entry := by
  simp only [restoreScopeMoves, List.reverse_cons, List.foldl_append, List.foldl_cons, List.foldl_nil]

theorem restore_snoc (moves : MoveMap) (entry : Spur × Option VariableMoveState) (frame : MoveFrame) :
    restoreScopeMoves moves (frame ++ [entry]) = restoreScopeMoves (restoreEntry moves entry) frame := by
  simp only [restoreScopeMoves, List.reverse_append, List.reverse_singleton, List.singleton_append, List.foldl_cons]

/-- What a frame restores a name to, if it declares it: the first saved state. -/
def restored (frame : MoveFrame) (symbol : Spur) : Option VariableMoveState :=
  match frame with
  | [] => none
  | (name, old) :: rest =>
    if symbol = name then some (old.getD VariableMoveState.default) else restored rest symbol

theorem restored_eq_none_iff (frame : MoveFrame) (symbol : Spur) :
    restored frame symbol = none ↔ symbol ∉ frame.map Prod.fst := by
  induction frame with
  | nil => simp [restored]
  | cons entry rest ih =>
    simp only [restored, List.map_cons, List.mem_cons, not_or]
    split
    next same => simp [same]
    next different => simp [different, ih]

theorem getOrDefault_restore (frame : MoveFrame) (moves : MoveMap) (symbol : Spur) :
    (restoreScopeMoves moves frame).getOrDefault symbol = (restored frame symbol).getD (moves.getOrDefault symbol) := by
  induction frame with
  | nil => rfl
  | cons entry rest ih =>
    obtain ⟨name, old⟩ := entry
    rw [restore_cons, getOrDefault_restoreEntry, restored]
    split
    next same => rfl
    next different => exact ih

theorem restore_alike (frame : MoveFrame) {first second : MoveMap} (alike : Alike first second) :
    Alike (restoreScopeMoves first frame) (restoreScopeMoves second frame) := by
  intro symbol
  rw [getOrDefault_restore, getOrDefault_restore, alike symbol]

/-- A frame is restored to both branches of a join before it or once after it. -/
theorem restore_union (frame : MoveFrame) (first second : MoveMap) :
    Alike (restoreScopeMoves (unionMoveMaps first second) frame)
      (unionMoveMaps (restoreScopeMoves first frame) (restoreScopeMoves second frame)) := by
  intro symbol
  rw [getOrDefault_union, getOrDefault_restore, getOrDefault_restore, getOrDefault_restore]
  cases restored frame symbol with
  | none => exact getOrDefault_union symbol first second
  | some state => exact (mergeUnion_self state).symm

end Frame

end Rue.Proofs.Ownership

/-! A move map agrees with the bindings' own states when it gives every visible
name its binding's state, now and after each of the open scopes is closed. -/

namespace Rue.Proofs.Ownership
open Rue.Air

theorem denotes_append_of_mem (scope rest : Scope) (symbol : Spur) (member : symbol ∈ scope.map Prod.fst) :
    denotes (scope ++ rest) symbol = denotes scope symbol := by
  induction scope with
  | nil => simp at member
  | cons entry scope ih =>
    obtain ⟨name, binding⟩ := entry
    simp only [List.cons_append, denotes]
    split
    next => rfl
    next different =>
      apply ih
      rcases List.mem_cons.mp member with same | inside
      · exact absurd same.symm different
      · exact inside

theorem denotes_append_of_not_mem (scope rest : Scope) (symbol : Spur) (absent : symbol ∉ scope.map Prod.fst) :
    denotes (scope ++ rest) symbol = denotes rest symbol := by
  induction scope with
  | nil => rfl
  | cons entry scope ih =>
    obtain ⟨name, binding⟩ := entry
    simp only [List.map_cons, List.mem_cons, not_or] at absent
    rw [List.cons_append, denotes, if_neg (fun same => absent.1 same.symm)]
    exact ih absent.2

theorem denotes_mem (scope : Scope) (symbol : Spur) (member : symbol ∈ scope.map Prod.fst) :
    denotes scope symbol ∈ scope.map Prod.snd := by
  induction scope with
  | nil => simp at member
  | cons entry scope ih =>
    obtain ⟨name, binding⟩ := entry
    simp only [denotes, List.map_cons, List.mem_cons]
    split
    next => exact Or.inl rfl
    next different =>
      right
      apply ih
      rcases List.mem_cons.mp member with same | inside
      · exact absurd same.symm different
      · exact inside

theorem denotes_of_not_mem (scope : Scope) (symbol : Spur) (absent : symbol ∉ scope.map Prod.fst) :
    denotes scope symbol = .parameter symbol := by
  have found := denotes_append_of_not_mem scope [] symbol absent
  rwa [List.append_nil] at found

/-- Every declaration has a serial number of its own, below the next one. -/
structure Distinct (serial : Nat) (declarations : Scope) : Prop where
  nodup : (declarations.map Prod.snd).Nodup
  declared : ∀ binding ∈ declarations.map Prod.snd, ∃ number < serial, binding = .declared number

namespace Distinct

variable {serial : Nat} {declarations : Scope}

theorem cons (distinct : Distinct serial declarations) (symbol : Spur) :
    Distinct (serial + 1) ((symbol, .declared serial) :: declarations) := by
  constructor
  · rw [List.map_cons, List.nodup_cons]
    refine ⟨?_, distinct.nodup⟩
    intro member
    obtain ⟨number, below, same⟩ := distinct.declared _ member
    cases same
    exact Nat.lt_irrefl _ below
  · intro binding member
    rcases List.mem_cons.mp member with same | older
    · exact ⟨serial, Nat.lt_succ_self _, same⟩
    · obtain ⟨number, below, same⟩ := distinct.declared _ older
      exact ⟨number, Nat.lt_succ_of_lt below, same⟩

theorem append_right {scope rest : Scope} (distinct : Distinct serial (scope ++ rest)) : Distinct serial rest := by
  constructor
  · have nodup := distinct.nodup
    rw [List.map_append] at nodup
    exact nodup.of_append_right
  · intro binding member
    apply distinct.declared
    rw [List.map_append]
    exact List.mem_append_right _ member

theorem fresh_denotes (distinct : Distinct serial declarations) (symbol : Spur) :
    denotes declarations symbol ≠ .declared serial := by
  intro same
  by_cases member : symbol ∈ declarations.map Prod.fst
  · obtain ⟨number, below, equal⟩ := distinct.declared _ (denotes_mem declarations symbol member)
    cases same.symm.trans equal
    exact Nat.lt_irrefl _ below
  · rw [denotes_of_not_mem declarations symbol member] at same
    cases same

theorem denotes_injective (distinct : Distinct serial declarations) {symbol other : Spur}
    (same : denotes declarations symbol = denotes declarations other) : symbol = other := by
  induction declarations with
  | nil =>
    cases same
    rfl
  | cons entry rest ih =>
    obtain ⟨name, binding⟩ := entry
    have shorter : Distinct serial rest := append_right (List.singleton_append ▸ distinct)
    have apart (wanted : Spur) : denotes rest wanted ≠ binding := by
      intro equal
      by_cases member : wanted ∈ rest.map Prod.fst
      · have nodup := distinct.nodup
        rw [List.map_cons, List.nodup_cons] at nodup
        exact nodup.1 (equal ▸ denotes_mem rest wanted member)
      · rw [denotes_of_not_mem rest wanted member] at equal
        obtain ⟨number, _, declared⟩ := distinct.declared binding (by simp)
        cases equal.trans declared
    simp only [denotes] at same
    split at same
    next first =>
      split at same
      next second => exact first.symm.trans second
      next => exact absurd same.symm (apart other)
    next =>
      split at same
      next => exact absurd same (apart symbol)
      next => exact ih shorter same

end Distinct

/-- Frame by frame, the saved states and the declarations are of the same names. -/
def Declared (frames : List MoveFrame) (scopes : List Scope) : Prop :=
  List.Forall₂ (fun frame scope => ∀ symbol, symbol ∈ frame.map Prod.fst ↔ symbol ∈ scope.map Prod.fst) frames scopes

inductive Agrees (outermost : Scope) (store : Store) : List MoveFrame → List Scope → MoveMap → Prop
  | outside {moves : MoveMap} (visible : ∀ symbol, moves.getOrDefault symbol = store (denotes outermost symbol)) :
      Agrees outermost store [] [] moves
  | inside {frame : MoveFrame} {frames : List MoveFrame} {scope : Scope} {scopes : List Scope} {moves : MoveMap}
      (visible : ∀ symbol, moves.getOrDefault symbol = store (denotes ((scope :: scopes).flatten ++ outermost) symbol))
      (closed : Agrees outermost store frames scopes (restoreScopeMoves moves frame)) :
      Agrees outermost store (frame :: frames) (scope :: scopes) moves

namespace Agrees

variable {outermost : Scope} {store : Store} {frames : List MoveFrame} {scopes : List Scope} {moves : MoveMap}

theorem visible (agrees : Agrees outermost store frames scopes moves) (symbol : Spur) :
    moves.getOrDefault symbol = store (denotes (scopes.flatten ++ outermost) symbol) := by
  cases agrees with
  | outside visible => exact visible symbol
  | inside visible _ => exact visible symbol

theorem alike (agrees : Agrees outermost store frames scopes moves) {other : MoveMap} (same : Alike moves other) :
    Agrees outermost store frames scopes other := by
  induction agrees generalizing other with
  | outside visible => exact .outside fun symbol => (same symbol).symm.trans (visible symbol)
  | inside visible _ ih =>
    apply Agrees.inside
    · exact fun symbol => (same symbol).symm.trans (visible symbol)
    · exact ih (Frame.restore_alike _ same)

theorem union {second : Store} {other : MoveMap} (agrees : Agrees outermost store frames scopes moves)
    (agrees' : Agrees outermost second frames scopes other) :
    Agrees outermost (store.join second) frames scopes (unionMoveMaps moves other) := by
  induction agrees generalizing other with
  | outside visible =>
    apply Agrees.outside
    intro symbol
    rw [getOrDefault_union, visible symbol, agrees'.visible symbol]
    rfl
  | @inside frame _ _ _ moves visible _ ih =>
    cases agrees' with
    | inside visible' closed' =>
      apply Agrees.inside
      · intro symbol
        rw [getOrDefault_union, visible symbol, visible' symbol]
        rfl
      · apply (ih closed').alike
        exact fun symbol => (Frame.restore_union frame moves other symbol).symm

theorem enter (agrees : Agrees outermost store frames scopes moves) :
    Agrees outermost store ([] :: frames) ([] :: scopes) moves :=
  .inside agrees.visible agrees

theorem leave {frame : MoveFrame} {scope : Scope}
    (agrees : Agrees outermost store (frame :: frames) (scope :: scopes) moves) :
    Agrees outermost store frames scopes (restoreScopeMoves moves frame) := by
  cases agrees with
  | inside _ closed => exact closed

/-- A binding that no name denotes, visible or shadowed, does not matter. -/
theorem set_undenoted (agrees : Agrees outermost store frames scopes moves) {number : Nat}
    (undenoted : Binding.declared number ∉ (scopes.flatten ++ outermost).map Prod.snd) (state : VariableMoveState) :
    Agrees outermost (store.set (.declared number) state) frames scopes moves := by
  have unchanged (declarations : Scope) (absent : Binding.declared number ∉ declarations.map Prod.snd)
      (symbol : Spur) : store.set (.declared number) state (denotes declarations symbol) =
        store (denotes declarations symbol) := by
    apply if_neg
    intro same
    by_cases member : symbol ∈ declarations.map Prod.fst
    · exact absent (same ▸ denotes_mem declarations symbol member)
    · rw [denotes_of_not_mem declarations symbol member] at same
      cases same
  induction agrees with
  | outside visible =>
    exact .outside fun symbol => (visible symbol).trans (unchanged _ undenoted symbol).symm
  | inside visible _ ih =>
    apply Agrees.inside
    · exact fun symbol => (visible symbol).trans (unchanged _ undenoted symbol).symm
    · apply ih
      intro member
      apply undenoted
      rw [List.flatten_cons, List.append_assoc, List.map_append]
      exact List.mem_append_right _ member

/-- A new declaration hides its name's binding, whose state the frame saves. -/
theorem declare {serial : Nat} {symbol : Spur} {frame : MoveFrame} {scope : Scope}
    (agrees : Agrees outermost store (frame :: frames) (scope :: scopes) moves)
    (distinct : Distinct serial ((scope :: scopes).flatten ++ outermost)) :
    Agrees outermost (store.set (.declared serial) VariableMoveState.default)
      ((frame ++ [(symbol, moves symbol)]) :: frames) (((symbol, .declared serial) :: scope) :: scopes)
      (moves.remove symbol) := by
  apply Agrees.inside
  · intro other
    rw [getOrDefault_remove, List.flatten_cons, List.cons_append, List.cons_append, denotes]
    by_cases same : other = symbol
    · rw [if_pos same, if_pos same.symm]
      exact (if_pos rfl).symm
    · rw [if_neg same, if_neg (fun equal => same equal.symm), agrees.visible other]
      exact (if_neg (distinct.fresh_denotes other)).symm
  · rw [Frame.restore_snoc]
    have restored : restoreEntry (moves.remove symbol) (symbol, moves symbol) = moves := by
      funext other
      by_cases same : other = symbol
      · subst other
        cases known : moves symbol <;> simp [restoreEntry, MoveMap.remove, MoveMap.insert]
      · cases moves symbol <;> simp [restoreEntry, MoveMap.remove, MoveMap.insert, same]
    rw [restored]
    apply agrees.leave.set_undenoted
    intro member
    obtain ⟨number, below, same⟩ := distinct.declared (.declared serial) (by
      rw [List.flatten_cons, List.append_assoc, List.map_append]
      exact List.mem_append_right _ member)
    cases same
    exact Nat.lt_irrefl _ below

/-- A change to the visible binding of a name stays out of sight of the binding
it shadows. -/
theorem update {serial : Nat} {symbol : Spur} {state : VariableMoveState} {changed : MoveMap}
    (agrees : Agrees outermost store frames scopes moves) (declared : Declared frames scopes)
    (distinct : Distinct serial (scopes.flatten ++ outermost))
    (change : ∀ other, changed.getOrDefault other = if other = symbol then state else moves.getOrDefault other) :
    Agrees outermost (store.set (denotes (scopes.flatten ++ outermost) symbol) state) frames scopes changed := by
  have seen (declarations : Scope) (apart : Distinct serial declarations) (moves changed : MoveMap)
      (visible : ∀ other, moves.getOrDefault other = store (denotes declarations other))
      (change : ∀ other, changed.getOrDefault other = if other = symbol then state else moves.getOrDefault other)
      (other : Spur) : changed.getOrDefault other =
        store.set (denotes declarations symbol) state (denotes declarations other) := by
    rw [change other, Store.set]
    by_cases same : other = symbol
    · rw [if_pos same, if_pos (congrArg _ same)]
    · rw [if_neg same, if_neg (fun equal => same (apart.denotes_injective equal))]
      exact visible other
  induction agrees generalizing changed with
  | @outside moves visible => exact .outside (seen outermost distinct moves changed visible change)
  | @inside frame frames scope scopes moves visible closed ih =>
    apply Agrees.inside
    · exact seen _ distinct moves changed visible change
    · obtain ⟨names, outer⟩ := List.forall₂_cons.mp declared
      rw [List.flatten_cons, List.append_assoc] at distinct ⊢
      by_cases member : symbol ∈ scope.map Prod.fst
      · rw [denotes_append_of_mem scope _ symbol member]
        obtain ⟨number, _, known⟩ := distinct.declared (denotes scope symbol) (by
          rw [List.map_append]
          exact List.mem_append_left _ (denotes_mem scope symbol member))
        have nodup := distinct.nodup
        rw [List.map_append] at nodup
        have undenoted := List.disjoint_of_nodup_append nodup (denotes_mem scope symbol member)
        rw [known] at undenoted ⊢
        apply (closed.set_undenoted undenoted state).alike
        intro other
        rw [Frame.getOrDefault_restore, Frame.getOrDefault_restore, change other]
        split
        next same =>
          subst other
          cases restored : Frame.restored frame symbol with
          | none => exact absurd ((names symbol).mpr member) ((Frame.restored_eq_none_iff _ _).mp restored)
          | some saved => rfl
        next => rfl
      · rw [denotes_append_of_not_mem scope _ symbol member]
        apply ih outer distinct.append_right
        intro other
        rw [Frame.getOrDefault_restore, Frame.getOrDefault_restore, change other]
        split
        next same =>
          subst other
          rw [(Frame.restored_eq_none_iff _ _).mpr (fun inside => member ((names symbol).mp inside))]
          rfl
        next => rfl

end Agrees

end Rue.Proofs.Ownership
