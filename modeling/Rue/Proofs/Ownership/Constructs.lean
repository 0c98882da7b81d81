import Rue.Proofs.Ownership.Agreement

/-! A snapshot agrees with the states at its edges when closing the scopes it is
tagged with gives the outer bindings their own states at those edges. -/

namespace Rue.Proofs.Ownership
open Rue.Air

section UnionAll

variable {Moves : Type} {union : Moves → Moves → Moves} [Std.Associative union]

theorem unionAll_append {first : List Moves} {merged : Moves} (known : unionAll union first = some merged)
    (second : List Moves) :
    unionAll union (first ++ second) = some ((unionAll union second).elim merged (union merged)) := by
  cases first with
  | nil => cases known
  | cons head tail =>
    cases known
    cases second with
    | nil => simp [unionAll]
    | cons next rest =>
      simp only [unionAll, List.cons_append, List.foldl_append, List.foldl_cons, Option.elim_some, List.foldl_assoc]

theorem unionAll_flatten {groups : List (List Moves)} {merged : List Moves}
    (known : List.Forall₂ (fun group result => unionAll union group = some result) groups merged) :
    unionAll union groups.flatten = unionAll union merged := by
  induction known with
  | nil => rfl
  | @cons group result groups merged first rest ih =>
    rw [List.flatten_cons, unionAll_append first, ih]
    have single : unionAll union [result] = some result := rfl
    exact (unionAll_append single merged).symm

end UnionAll

theorem forall₂_concat {α β : Type} {related : α → β → Prop} {init : List α} {last : α} {others : List β}
    (all : List.Forall₂ related (init ++ [last]) others) :
    ∃ before final, others = before ++ [final] ∧ List.Forall₂ related init before ∧ related last final := by
  induction init generalizing others with
  | nil =>
    cases all with
    | @cons _ final _ _ only none =>
      cases none
      exact ⟨[], final, rfl, .nil, only⟩
  | cons head tail ih =>
    cases all with
    | @cons _ other _ _ first rest =>
      obtain ⟨before, final, rfl, together, last⟩ := ih rest
      exact ⟨other :: before, final, rfl, .cons first together, last⟩

instance : Std.Associative Store.join where
  assoc first second third := by
    funext binding
    exact mergeUnion_assoc _ _ _

variable {outermost : Scope} {store : Store} {frames : List MoveFrame} {scopes : List Scope}

theorem Agrees.foldl {first : MoveMap} (agrees : Agrees outermost store frames scopes first)
    {maps : List MoveMap} {stores : List Store}
    (rest : List.Forall₂ (fun moves store => Agrees outermost store frames scopes moves) maps stores) :
    Agrees outermost (stores.foldl Store.join store) frames scopes (maps.foldl unionMoveMaps first) := by
  induction rest generalizing first store with
  | nil => exact agrees
  | cons next _ ih => exact ih (agrees.union next)

theorem Agrees.merged {maps : List MoveMap} {stores : List Store}
    (agree : List.Forall₂ (fun moves store => Agrees outermost store frames scopes moves) maps stores) :
    Option.Rel (fun moves store => Agrees outermost store frames scopes moves)
      (unionAll unionMoveMaps maps) (unionAll Store.join stores) := by
  cases agree with
  | nil => exact .none
  | cons first rest => exact .some (first.foldl rest)

inductive SnapshotAgrees (outermost : Scope) (store : Store) :
    List MoveFrame → List Scope → EdgeSnapshot → Prop
  | here {frame : MoveFrame} {frames : List MoveFrame} {scope : Scope} {scopes : List Scope} {snap : EdgeSnapshot}
      (tag : snap.2 = frames.length + 1)
      (closed : Agrees outermost store frames scopes (restoreScopeMoves snap.1 frame)) :
      SnapshotAgrees outermost store (frame :: frames) (scope :: scopes) snap
  | outer {frame : MoveFrame} {frames : List MoveFrame} {scope : Scope} {scopes : List Scope} {snap : EdgeSnapshot}
      (agrees : SnapshotAgrees outermost store frames scopes snap) :
      SnapshotAgrees outermost store (frame :: frames) (scope :: scopes) snap

namespace SnapshotAgrees

variable {snap : EdgeSnapshot}

theorem tag_le (agrees : SnapshotAgrees outermost store frames scopes snap) : snap.2 ≤ frames.length := by
  induction agrees with
  | here tag _ => exact Nat.le_of_eq tag
  | outer _ ih => exact Nat.le_succ_of_le ih

theorem innermost {frame : MoveFrame} {scope : Scope}
    (agrees : SnapshotAgrees outermost store (frame :: frames) (scope :: scopes) snap)
    (tag : snap.2 = frames.length + 1) : Agrees outermost store frames scopes (restoreScopeMoves snap.1 frame) := by
  cases agrees with
  | here _ closed => exact closed
  | outer agrees =>
    have bound := agrees.tag_le
    omega

theorem union {second : Store} {moves other : MoveMap} {depth : Nat}
    (agrees : SnapshotAgrees outermost store frames scopes (moves, depth))
    (agrees' : SnapshotAgrees outermost second frames scopes (other, depth)) :
    SnapshotAgrees outermost (store.join second) frames scopes (unionMoveMaps moves other, depth) := by
  generalize same : (moves, depth) = snap at agrees
  induction agrees with
  | @here frame frames scope scopes snap tag closed =>
    subst same
    refine .here tag ?_
    apply (closed.union (agrees'.innermost tag)).alike
    exact fun symbol => (Frame.restore_union frame moves other symbol).symm
  | outer agrees ih =>
    subst same
    refine .outer ?_
    cases agrees' with
    | here tag _ =>
      have bound := agrees.tag_le
      simp only at tag bound
      omega
    | outer agrees' => exact ih agrees' rfl

/-- Closing the innermost scope replays its frame on the snapshots taken in it. -/
theorem leave {frame : MoveFrame} {scope : Scope}
    (agrees : SnapshotAgrees outermost store (frame :: frames) (scope :: scopes) snap) (open' : frames ≠ []) :
    SnapshotAgrees outermost store frames scopes (OwnershipState.replay frame (frames.length + 1) snap) := by
  cases agrees with
  | here tag closed =>
    rw [OwnershipState.replay, if_pos (Nat.le_of_eq tag.symm)]
    cases closed with
    | outside => exact absurd rfl open'
    | inside _ closed => exact .here rfl closed
  | outer agrees =>
    have bound := agrees.tag_le
    rw [OwnershipState.replay, if_neg (by omega)]
    exact agrees

/-- A declaration after the edge leaves the snapshot alone when its name is
declared in the scope already or has the same state in the snapshot. -/
theorem declare {frame : MoveFrame} {scope newScope : Scope} {symbol : Spur} {old : Option VariableMoveState}
    (agrees : SnapshotAgrees outermost store (frame :: frames) (scope :: scopes) snap)
    (safe : symbol ∈ frame.map Prod.fst ∨ (snap.2 = frames.length + 1 →
      snap.1.getOrDefault symbol = old.getD VariableMoveState.default)) :
    SnapshotAgrees outermost store ((frame ++ [(symbol, old)]) :: frames) (newScope :: scopes) snap := by
  cases agrees with
  | outer agrees => exact .outer agrees
  | here tag closed =>
    refine .here tag (closed.alike ?_)
    intro other
    rw [Frame.restore_snoc, Frame.getOrDefault_restore, Frame.getOrDefault_restore, getOrDefault_restoreEntry]
    by_cases same : other = symbol
    · subst other
      rcases safe with known | equal
      · cases restored : Frame.restored frame symbol with
        | none => exact absurd known ((Frame.restored_eq_none_iff _ _).mp restored)
        | some saved => rfl
      · rw [if_pos rfl, equal tag]
    · rw [if_neg same]

end SnapshotAgrees

/-- The snapshots of one kind of edge of a loop: each is the join of the edges
merged into it, and together they are all the edges, in order. -/
def EdgesAgree (outermost : Scope) (loopFrame : Nat) (frames : List MoveFrame) (scopes : List Scope)
    (snaps : List EdgeSnapshot) (edges : List Store) : Prop :=
  ∃ groups : List (List Store), edges = groups.flatten ∧
    List.Forall₂ (fun snap group => loopFrame < snap.2 ∧ ∃ store, unionAll Store.join group = some store ∧
      SnapshotAgrees outermost store frames scopes snap) snaps groups

namespace EdgesAgree

variable {loopFrame : Nat} {snaps : List EdgeSnapshot} {edges : List Store}

theorem empty : EdgesAgree outermost loopFrame frames scopes [] [] := ⟨[], rfl, .nil⟩

theorem map {newFrames : List MoveFrame} {newScopes : List Scope} {change : EdgeSnapshot → EdgeSnapshot}
    (agree : EdgesAgree outermost loopFrame frames scopes snaps edges)
    (kept : ∀ snap ∈ snaps, ∀ store, loopFrame < snap.2 → SnapshotAgrees outermost store frames scopes snap →
      loopFrame < (change snap).2 ∧ SnapshotAgrees outermost store newFrames newScopes (change snap)) :
    EdgesAgree outermost loopFrame newFrames newScopes (snaps.map change) edges := by
  obtain ⟨groups, same, agree⟩ := agree
  refine ⟨groups, same, ?_⟩
  apply List.forall₂_map_left_iff.mpr
  clear same
  induction agree with
  | nil => exact .nil
  | @cons snap group snaps groups first rest ih =>
    obtain ⟨below, store, merged, agrees⟩ := first
    obtain ⟨below', agrees'⟩ := kept snap (by simp) store below agrees
    exact .cons ⟨below', store, merged, agrees'⟩ (ih fun snap member => kept snap (by simp [member]))

/-- Recording one more edge, which may be merged into the last snapshot. -/
theorem record {moves : MoveMap} {depth : Nat} (agree : EdgesAgree outermost loopFrame frames scopes snaps edges)
    (below : loopFrame < depth) (agrees : SnapshotAgrees outermost store frames scopes (moves, depth)) :
    EdgesAgree outermost loopFrame frames scopes (recordEdgeSnapshot snaps moves depth) (edges ++ [store]) := by
  obtain ⟨groups, rfl, agree⟩ := agree
  have appended : EdgesAgree outermost loopFrame frames scopes (snaps ++ [(moves, depth)])
      (groups.flatten ++ [store]) := by
    refine ⟨groups ++ [[store]], by simp, ?_⟩
    exact List.rel_append agree (.cons ⟨below, store, rfl, agrees⟩ .nil)
  rcases List.eq_nil_or_concat snaps with rfl | ⟨earlier, ⟨existing, existingDepth⟩, rfl⟩
  · exact appended
  · simp only [List.concat_eq_append] at agree appended ⊢
    rw [recordEdgeSnapshot, List.getLast?_concat]
    simp only
    split
    next same =>
      subst existingDepth
      obtain ⟨before, group, rfl, first, _, joined, merged, known⟩ := forall₂_concat agree
      rw [List.dropLast_concat]
      refine ⟨before ++ [group ++ [store]], by simp, ?_⟩
      refine List.rel_append first (.cons ⟨below, joined.join store, ?_, known.union agrees⟩ .nil)
      rw [unionAll_append merged]
      rfl
    next => exact appended

/-- When the loop's own scope has been closed, the merged snapshots agree with
the join over all edges. -/
theorem merged {frame : MoveFrame} {scope : Scope}
    (agree : EdgesAgree outermost frames.length (frame :: frames) (scope :: scopes) snaps edges) :
    Option.Rel (fun moves store => Agrees outermost store frames scopes moves)
      (mergedEdgeMoves (snaps.map (OwnershipState.replay frame (frames.length + 1))))
      (unionAll Store.join edges) := by
  obtain ⟨groups, rfl, agree⟩ := agree
  have pieces : ∃ stores,
      List.Forall₂ (fun group store => unionAll Store.join group = some store) groups stores ∧
      List.Forall₂ (fun moves store => Agrees outermost store frames scopes moves)
        ((snaps.map (OwnershipState.replay frame (frames.length + 1))).map Prod.fst) stores := by
    induction agree with
    | nil => exact ⟨[], .nil, .nil⟩
    | @cons snap group snaps groups first rest ih =>
      obtain ⟨below, store, merged, agrees⟩ := first
      obtain ⟨stores, joined, restored⟩ := ih
      refine ⟨store :: stores, .cons merged joined, .cons ?_ restored⟩
      have bound := agrees.tag_le
      rw [List.length_cons] at bound
      rw [OwnershipState.replay, if_pos (by omega)]
      exact agrees.innermost (by omega)
  obtain ⟨stores, joined, restored⟩ := pieces
  rw [unionAll_flatten joined]
  exact Agrees.merged restored

end EdgesAgree

end Rue.Proofs.Ownership

/-! What the open constructs and the records of the open loops keep agrees with
the bindings' states, and their joins do. -/

namespace Rue.Proofs.Ownership
open Rue.Air

/-- The frames of the open loops, the innermost first. -/
def loopFrames {Moves : Type} : List (Construct Moves) → List Nat
  | [] => []
  | .infiniteLoop :: enclosing => enclosing.length :: loopFrames enclosing
  | .whileLoop _ :: enclosing => enclosing.length :: loopFrames enclosing
  | .block :: enclosing => loopFrames enclosing
  | .thenArm _ :: enclosing => loopFrames enclosing
  | .elseArm _ :: enclosing => loopFrames enclosing
  | .matchArm _ _ :: enclosing => loopFrames enclosing

theorem loopFrames_lt {Moves : Type} (constructs : List (Construct Moves)) :
    ∀ frame ∈ loopFrames constructs, frame < constructs.length := by
  induction constructs with
  | nil => simp [loopFrames]
  | cons construct enclosing ih =>
    have wider : ∀ frame ∈ loopFrames enclosing, frame < (construct :: enclosing).length := by
      intro frame member
      exact Nat.lt_succ_of_lt (ih frame member)
    cases construct with
    | infiniteLoop =>
      intro frame member
      rcases List.mem_cons.mp member with rfl | member
      · exact Nat.lt_succ_self _
      · exact wider frame member
    | whileLoop afterCondition =>
      intro frame member
      rcases List.mem_cons.mp member with rfl | member
      · exact Nat.lt_succ_self _
      · exact wider frame member
    | block => exact wider
    | thenArm saved => exact wider
    | elseArm thenMoves => exact wider
    | matchArm before arms => exact wider

/-- The captured arms of a `match`, one by one. -/
def ArmsAgree (agrees : Store → MoveMap → Prop) (arms : List (Arm MoveMap)) (stores : List (Arm Store)) : Prop :=
  List.Forall₂ (fun arm other => agrees other.1 arm.1 ∧ arm.2 = other.2) arms stores

inductive ConstructAgrees (agrees : Store → MoveMap → Prop) : Construct MoveMap → Construct Store → Prop
  | block : ConstructAgrees agrees .block .block
  | thenArm {moves : MoveMap} {store : Store} (saved : agrees store moves) :
      ConstructAgrees agrees (.thenArm moves) (.thenArm store)
  | elseArm {moves : MoveMap} {store : Store} {flags : Bool × DivergenceKinds} (saved : agrees store moves) :
      ConstructAgrees agrees (.elseArm (moves, flags)) (.elseArm (store, flags))
  | matchArm {moves : MoveMap} {store : Store} {arms : List (Arm MoveMap)} {stores : List (Arm Store)}
      (saved : agrees store moves)
      (captured : ArmsAgree agrees arms stores) :
      ConstructAgrees agrees (.matchArm moves arms) (.matchArm store stores)
  | infiniteLoop : ConstructAgrees agrees .infiniteLoop .infiniteLoop
  | whileLoop {moves : MoveMap} {store : Store} (saved : agrees store moves) :
      ConstructAgrees agrees (.whileLoop moves) (.whileLoop store)

section Joins

variable {outermost : Scope} {frames : List MoveFrame} {scopes : List Scope}

theorem Agrees.joined {maps : List MoveMap} {stores : List Store} {moves : MoveMap} {store : Store}
    (agree : List.Forall₂ (fun moves store => Agrees outermost store frames scopes moves) maps stores)
    (nonempty : maps ≠ []) :
    Agrees outermost ((unionAll Store.join stores).getD store) frames scopes
      ((unionAll unionMoveMaps maps).getD moves) := by
  cases agree with
  | nil => exact absurd rfl nonempty
  | cons first rest => exact first.foldl rest

theorem Agrees.branches {thenMoves elseMoves moves : MoveMap} {thenStore elseStore : Store}
    (first : Agrees outermost thenStore frames scopes thenMoves)
    (second : Agrees outermost elseStore frames scopes elseMoves) (thenFlags elseFlags : Bool × DivergenceKinds)
    (store : Store) :
    Agrees outermost
      ((unionAll Store.join (joinedBranches (thenStore, thenFlags) (elseStore, elseFlags))).getD store) frames scopes
      ((unionAll unionMoveMaps (joinedBranches (thenMoves, thenFlags) (elseMoves, elseFlags))).getD moves) := by
  have both : List.Forall₂ (fun moves store => Agrees outermost store frames scopes moves)
      [thenMoves, elseMoves] [thenStore, elseStore] := .cons first (.cons second .nil)
  have onlyFirst : List.Forall₂ (fun moves store => Agrees outermost store frames scopes moves)
      [thenMoves] [thenStore] := .cons first .nil
  have onlySecond : List.Forall₂ (fun moves store => Agrees outermost store frames scopes moves)
      [elseMoves] [elseStore] := .cons second .nil
  obtain ⟨thenDiverges, thenDivergence⟩ := thenFlags
  obtain ⟨elseDiverges, elseDivergence⟩ := elseFlags
  simp only [joinedBranches]
  cases thenDiverges with
  | true =>
    cases elseDiverges with
    | true =>
      cases thenDivergence.hasOther <;> cases elseDivergence.hasOther
      · exact Agrees.joined onlyFirst (List.cons_ne_nil _ _)
      · exact Agrees.joined onlySecond (List.cons_ne_nil _ _)
      · exact Agrees.joined onlyFirst (List.cons_ne_nil _ _)
      · exact Agrees.joined both (List.cons_ne_nil _ _)
    | false => exact Agrees.joined onlySecond (List.cons_ne_nil _ _)
  | false =>
    cases elseDiverges with
    | true => exact Agrees.joined onlyFirst (List.cons_ne_nil _ _)
    | false => exact Agrees.joined both (List.cons_ne_nil _ _)

namespace ArmsAgree

variable {agrees : Store → MoveMap → Prop} {arms : List (Arm MoveMap)} {stores : List (Arm Store)}

theorem snoc (captured : ArmsAgree agrees arms stores) {moves : MoveMap} {store : Store}
    (last : agrees store moves) (flags : Bool × DivergenceKinds) :
    ArmsAgree agrees (arms ++ [(moves, flags)]) (stores ++ [(store, flags)]) :=
  List.rel_append captured (.cons ⟨last, rfl⟩ .nil)

theorem filter (captured : ArmsAgree agrees arms stores) (kept : Bool × DivergenceKinds → Bool) :
    ArmsAgree agrees (arms.filter fun arm => kept arm.2) (stores.filter fun arm => kept arm.2) := by
  induction captured with
  | nil => exact .nil
  | cons first _ ih =>
    simp only [List.filter_cons, first.2]
    split
    · exact .cons first ih
    · exact ih

theorem map (captured : ArmsAgree agrees arms stores) :
    List.Forall₂ (fun moves store => agrees store moves) (arms.map Prod.fst) (stores.map Prod.fst) := by
  induction captured with
  | nil => exact .nil
  | cons first _ ih => exact .cons first.1 ih

theorem isEmpty (captured : ArmsAgree agrees arms stores) : arms.isEmpty = stores.isEmpty := by
  cases captured <;> rfl

theorem join {moves : MoveMap}
    (captured : ArmsAgree (fun store moves => Agrees outermost store frames scopes moves) arms stores)
    (store : Store) (nonempty : arms ≠ []) :
    Agrees outermost ((unionAll Store.join (joinedArms stores)).getD store) frames scopes
      ((unionAll unionMoveMaps (joinedArms arms)).getD moves) := by
  have live := captured.filter fun flags => !flags.1
  have nonpanic := captured.filter fun flags => flags.2.hasOther
  simp only [joinedArms, ← live.isEmpty, ← nonpanic.isEmpty]
  split
  next some =>
    apply Agrees.joined live.map
    simpa using some
  next =>
    split
    next some =>
      apply Agrees.joined nonpanic.map
      simpa using some
    next =>
      apply Agrees.joined captured.map
      simpa using nonempty

end ArmsAgree

end Joins

/-- What reassigning a part of a variable does to the states by name. -/
theorem markPathReinitialized_moves (state : OwnershipState) (symbol : Spur) (path : FieldPath) :
    ∃ changed, state.markPathReinitialized symbol path = { state with movedVars := changed } ∧
      ∀ other, changed.getOrDefault other =
        if other = symbol then (state.movedVars.getOrDefault symbol).markPathReinitialized path
        else state.movedVars.getOrDefault other := by
  simp only [OwnershipState.markPathReinitialized]
  cases known : state.movedVars symbol with
  | none =>
    refine ⟨state.movedVars, rfl, ?_⟩
    intro other
    split
    next same =>
      subst other
      simp only [MoveMap.getOrDefault, known, Option.getD_none]
      exact VariableMoveState.ext rfl rfl rfl rfl
    next => rfl
  | some moves =>
    have current : state.movedVars.getOrDefault symbol = moves := by
      simp only [MoveMap.getOrDefault, known, Option.getD_some]
    refine ⟨_, rfl, ?_⟩
    intro other
    rw [current]
    split
    next empty => rw [getOrDefault_remove, eq_default_of_isEmpty empty]
    next => exact getOrDefault_insert _ _ _ _

/-- What the open constructs keep agrees with the scopes around them. -/
inductive ConstructsAgree (outermost : Scope) :
    List MoveFrame → List Scope → List (Construct MoveMap) → List (Construct Store) → Prop
  | nil : ConstructsAgree outermost [] [] [] []
  | cons {frame : MoveFrame} {frames : List MoveFrame} {scope : Scope} {scopes : List Scope}
      {construct : Construct MoveMap} {constructs : List (Construct MoveMap)}
      {other : Construct Store} {others : List (Construct Store)}
      (agrees : ConstructAgrees (fun store moves => Agrees outermost store frames scopes moves) construct other)
      (rest : ConstructsAgree outermost frames scopes constructs others) :
      ConstructsAgree outermost (frame :: frames) (scope :: scopes) (construct :: constructs) (other :: others)

theorem ConstructsAgree.length {outermost : Scope} {frames : List MoveFrame} {scopes : List Scope}
    {constructs : List (Construct MoveMap)} {others : List (Construct Store)}
    (agree : ConstructsAgree outermost frames scopes constructs others) : constructs.length = frames.length := by
  induction agree with
  | nil => rfl
  | cons _ _ ih => exact congrArg (· + 1) ih

def RecordAgrees (outermost : Scope) (frames : List MoveFrame) (scopes : List Scope) (record : LoopEdgeStates)
    (edges : List Store × List Store) : Prop :=
  EdgesAgree outermost record.firstUnwoundFrame frames scopes record.breakSnaps edges.1 ∧
    EdgesAgree outermost record.firstUnwoundFrame frames scopes record.continueSnaps edges.2

namespace RecordAgrees

variable {outermost : Scope} {frames : List MoveFrame} {scopes : List Scope} {record : LoopEdgeStates}
  {edges : List Store × List Store}

theorem enter (agree : RecordAgrees outermost frames scopes record edges) :
    RecordAgrees outermost ([] :: frames) ([] :: scopes) record edges := by
  have kept (snaps : List EdgeSnapshot) : ∀ snap ∈ snaps, ∀ store, record.firstUnwoundFrame < snap.2 →
      SnapshotAgrees outermost store frames scopes snap → record.firstUnwoundFrame < (id snap).2 ∧
        SnapshotAgrees outermost store ([] :: frames) ([] :: scopes) (id snap) :=
    fun _ _ _ below agrees => ⟨below, .outer agrees⟩
  have breaks := agree.1.map (kept _)
  have continues := agree.2.map (kept _)
  rw [List.map_id] at breaks continues
  exact ⟨breaks, continues⟩

theorem leave {frame : MoveFrame} {scope : Scope}
    (agree : RecordAgrees outermost (frame :: frames) (scope :: scopes) record edges)
    (inside : record.firstUnwoundFrame < frames.length) :
    RecordAgrees outermost frames scopes (OwnershipState.replayRecord frame (frames.length + 1) record) edges := by
  have kept (snaps : List EdgeSnapshot) : ∀ snap ∈ snaps, ∀ store, record.firstUnwoundFrame < snap.2 →
      SnapshotAgrees outermost store (frame :: frames) (scope :: scopes) snap →
        record.firstUnwoundFrame < (OwnershipState.replay frame (frames.length + 1) snap).2 ∧
          SnapshotAgrees outermost store frames scopes (OwnershipState.replay frame (frames.length + 1) snap) := by
    intro snap _ store below agrees
    refine ⟨?_, agrees.leave (List.ne_nil_of_length_pos (Nat.zero_lt_of_lt inside))⟩
    simp only [OwnershipState.replay]
    split
    · exact inside
    · exact below
  exact ⟨agree.1.map (kept _), agree.2.map (kept _)⟩

theorem declare {frame : MoveFrame} {scope newScope : Scope} {symbol : Spur} {old : Option VariableMoveState}
    (agree : RecordAgrees outermost (frame :: frames) (scope :: scopes) record edges)
    (safe : symbol ∈ frame.map Prod.fst ∨ ∀ snap ∈ record.breakSnaps ++ record.continueSnaps,
      snap.2 = frames.length + 1 → snap.1.getOrDefault symbol = old.getD VariableMoveState.default) :
    RecordAgrees outermost ((frame ++ [(symbol, old)]) :: frames) (newScope :: scopes) record edges := by
  have kept : ∀ snap ∈ record.breakSnaps ++ record.continueSnaps, ∀ store, record.firstUnwoundFrame < snap.2 →
      SnapshotAgrees outermost store (frame :: frames) (scope :: scopes) snap →
        record.firstUnwoundFrame < (id snap).2 ∧ SnapshotAgrees outermost store
          ((frame ++ [(symbol, old)]) :: frames) (newScope :: scopes) (id snap) :=
    fun snap member store below agrees => ⟨below, agrees.declare (safe.imp_right fun same => same snap member)⟩
  have breaks := agree.1.map fun snap member => kept snap (List.mem_append_left _ member)
  have continues := agree.2.map fun snap member => kept snap (List.mem_append_right _ member)
  rw [List.map_id] at breaks continues
  exact ⟨breaks, continues⟩

end RecordAgrees

end Rue.Proofs.Ownership
