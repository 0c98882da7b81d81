import Rue.Lib.DepthFirst

/-! Preorder numbers of a tree and the largest one below each node, found with an
explicit stack. A node is below another when its number is in the other's interval. -/

namespace Rue.Lib.Preorder

/-- The numbers given so far, and each node on the stack with its next child. -/
structure State where
  preNum : Nat → Option Nat
  subtreeLast : Nat → Nat
  next : Nat
  stack : List (Nat × Nat)

def start (entry : Nat) : State := ⟨Function.update (fun _ => none) entry (some 0), fun _ => 0, 1, [(entry, 0)]⟩

/-- Number the next child of the node on top, or end the node's interval. -/
def turn (children : Nat → List Nat) (state : State) : State :=
  match state.stack with
  | [] => state
  | (node, cursor) :: below =>
    match (children node)[cursor]? with
    | some child =>
      { state with
        preNum := Function.update state.preNum child (some state.next)
        next := state.next + 1
        stack := (child, 0) :: (node, cursor + 1) :: below }
    | none => { state with subtreeLast := Function.update state.subtreeLast node (state.next - 1), stack := below }

/-- Every node is listed once, by one other node; the entry by none. -/
structure Branching (children : Nat → List Nat) (nodes entry : Nat) : Prop where
  inside : entry < nodes
  targets : ∀ node < nodes, ∀ child ∈ children node, child < nodes
  distinct : ∀ node, (children node).Nodup
  single : ∀ one other child, child ∈ children one → child ∈ children other → one = other
  root : ∀ node, entry ∉ children node

abbrev Below (children : Nat → List Nat) : Nat → Nat → Prop := Reachable (DepthFirst.Edge children)

/-- The walk beside the depth-first search that visits the same nodes. -/
structure Inv (children : Nat → List Nat) (nodes entry : Nat) (state : State) (search : DepthFirst.State) : Prop where
  searching : DepthFirst.Inv children nodes entry search
  stack : state.stack = search.stack
  retreats : search.retreats = []
  numbered : ∀ node, (state.preNum node).isSome ↔ node ∈ search.visited
  early : ∀ node pre, state.preNum node = some pre → pre < state.next
  fresh : ∀ node cursor, (node, cursor) ∈ search.stack → ∀ index child, cursor ≤ index →
    (children node)[index]? = some child → child ∉ search.visited
  closed : ∀ node child, child ∈ children node → child ∈ search.visited → node ∈ search.visited
  rises : ∀ node child pre preChild, child ∈ children node → state.preNum node = some pre →
    state.preNum child = some preChild → pre < preChild
  waiting : ∀ node other pre preOther, node ∈ search.onStack → state.preNum node = some pre →
    state.preNum other = some preOther → pre ≤ preOther → Below children node other
  ended : ∀ node ∈ search.finished, state.subtreeLast node < state.next
  done : ∀ node other pre preOther, node ∈ search.finished → state.preNum node = some pre →
    state.preNum other = some preOther → (pre ≤ preOther ∧ preOther ≤ state.subtreeLast node ↔ Below children node other)

variable {children : Nat → List Nat} {nodes entry : Nat} {state : State} {search : DepthFirst.State}

theorem start_inv (branching : Branching children nodes entry) : Inv children nodes entry (start entry) (DepthFirst.start entry) := by
  have only : ∀ node pre, (start entry).preNum node = some pre → node = entry ∧ pre = 0 := by
    intro node pre found
    by_cases here : node = entry
    · subst here
      simp only [start, Function.update_self] at found
      exact ⟨rfl, (Option.some_inj.mp found).symm⟩
    · simp only [start, Function.update_of_ne here] at found
      cases found
  refine ⟨DepthFirst.start_inv branching.inside, rfl, rfl, ?_, ?_, ?_, ?_, ?_, ?_, nofun, nofun⟩
  · intro node
    constructor
    · intro numbered
      obtain ⟨pre, found⟩ := Option.isSome_iff_exists.mp numbered
      rw [(only node pre found).1]
      exact .head _
    · intro member
      rw [List.mem_singleton.mp member]
      simp only [start, Function.update_self, Option.isSome_some]
  · intro node pre found
    rw [(only node pre found).2]
    exact Nat.zero_lt_one
  · intro node cursor _ index child _ found member
    rw [List.mem_singleton.mp member] at found
    exact branching.root node (List.mem_of_getElem? found)
  · intro node child edge member
    rw [List.mem_singleton.mp member] at edge
    exact absurd edge (branching.root node)
  · intro node child pre preChild edge _ found
    rw [(only child preChild found).1] at edge
    exact absurd edge (branching.root node)
  · intro node other pre preOther _ found found' _
    rw [(only node pre found).1, (only other preOther found').1]
    exact .start

namespace Inv

variable (inv : Inv children nodes entry state search)

include inv

theorem finished_below {node other : Nat} (finished : node ∈ search.finished) (below : Below children node other) :
    other ∈ search.finished := by
  obtain ⟨_, path⟩ := below
  refine path.invariant finished ?_
  intro source target member edge
  obtain ⟨later, earlier, same⟩ := List.append_of_mem member
  rcases inv.searching.ordered later source earlier same target edge with before | back
  · rw [same]
    exact List.mem_append_right _ (.tail _ before)
  · rw [inv.retreats] at back
    cases back

theorem rises_below {node other pre preOther : Nat} (below : Below children node other) (found : state.preNum node = some pre)
    (found' : state.preNum other = some preOther) : pre ≤ preOther := by
  obtain ⟨done, path⟩ := below
  induction path generalizing preOther with
  | start =>
    rw [found] at found'
    cases found'
    exact Nat.le_refl _
  | @step done middle last path edge ih =>
    have known : (state.preNum last).isSome := by
      rw [found']
      rfl
    have known' := (inv.numbered middle).mpr (inv.closed middle last edge ((inv.numbered last).mp known))
    obtain ⟨preMiddle, found''⟩ := Option.isSome_iff_exists.mp known'
    exact Nat.le_trans (ih found'') (Nat.le_of_lt (inv.rises middle last _ _ edge found'' found'))

/-- The node on top is below the others on the stack. -/
theorem top_below {node top cursor : Nat} {below : List (Nat × Nat)} (onTop : search.stack = (top, cursor) :: below)
    (onStack : node ∈ search.onStack) : Below children node top := by
  rw [DepthFirst.State.onStack, onTop, List.map_cons] at onStack
  rcases List.mem_cons.mp onStack with rfl | deeper
  · exact .start
  · have path := inv.searching.trail top cursor below onTop
    obtain ⟨before, after, same⟩ := List.append_of_mem (List.mem_reverse.mpr deeper)
    rw [same] at path
    exact ⟨_, path.split.2⟩

theorem push (branching : Branching children nodes entry) {node cursor child : Nat} {below : List (Nat × Nat)}
    (onTop : search.stack = (node, cursor) :: below) (found : (children node)[cursor]? = some child) :
    Inv children nodes entry
      { state with
        preNum := Function.update state.preNum child (some state.next)
        next := state.next + 1
        stack := (child, 0) :: (node, cursor + 1) :: below }
      { search with visited := child :: search.visited, stack := (child, 0) :: (node, cursor + 1) :: below } := by
  have edge := List.mem_of_getElem? found
  have new : child ∉ search.visited := inv.fresh node cursor (by rw [onTop]; exact .head _) cursor child (Nat.le_refl _) found
  have onStack : node ∈ search.onStack := by
    rw [DepthFirst.State.onStack, onTop]
    exact .head _
  have known := (inv.searching.marked node).mpr (.inl onStack)
  have unnumbered : ∀ {pre}, state.preNum child ≠ some pre := by
    intro pre same
    exact new ((inv.numbered child).mp (by rw [same]; rfl))
  have visited : ∀ {other pre}, state.preNum other = some pre → other ∈ search.visited := by
    intro other pre same
    exact (inv.numbered other).mp (by rw [same]; rfl)
  have split : ∀ {other pre}, Function.update state.preNum child (some state.next) other = some pre →
      other = child ∧ pre = state.next ∨ other ≠ child ∧ state.preNum other = some pre := by
    intro other pre same
    by_cases here : other = child
    · rw [here, Function.update_self] at same
      exact .inl ⟨here, (Option.some_inj.mp same).symm⟩
    · rw [Function.update_of_ne here] at same
      exact .inr ⟨here, same⟩
  have distinct := (List.nodup_append.mp inv.searching.distinct).1
  rw [DepthFirst.State.onStack, onTop, List.map_cons, List.nodup_cons] at distinct
  refine ⟨inv.searching.push branching.targets onTop found new, rfl, inv.retreats, ?_, ?_, ?_, ?_, ?_, ?_, ?_, ?_⟩
  · intro other
    rw [List.mem_cons, ← inv.numbered]
    by_cases here : other = child
    · simp [here]
    · simp [here]
  · intro other pre same
    rcases split same with ⟨_, rfl⟩ | ⟨_, old⟩
    · exact Nat.lt_succ_self _
    · exact Nat.lt_succ_of_lt (inv.early other pre old)
  · intro other i member index target late found' visited'
    rcases List.mem_cons.mp visited' with here | old
    · -- The child is listed once, by the node on top.
      rw [here] at found'
      have parent := branching.single node other child edge (List.mem_of_getElem? found')
      rcases List.mem_cons.mp member with same | member
      · cases same
        exact new (parent ▸ known)
      · rcases List.mem_cons.mp member with same | deeper
        · cases same
          have bound := (List.getElem?_eq_some_iff.mp found).1
          have := (List.getElem?_inj bound (branching.distinct node)).mp (found.trans found'.symm)
          omega
        · rw [← parent] at deeper
          exact distinct.1 (List.mem_map.mpr ⟨_, deeper, rfl⟩)
    · rcases List.mem_cons.mp member with same | member
      · cases same
        exact new (inv.closed child target (List.mem_of_getElem? found') old)
      · rcases List.mem_cons.mp member with same | deeper
        · cases same
          exact inv.fresh node cursor (by rw [onTop]; exact .head _) index target (by omega) found' old
        · exact inv.fresh other i (by rw [onTop]; exact .tail _ deeper) index target late found' old
  · intro other target edge' visited'
    rcases List.mem_cons.mp visited' with rfl | old
    · rw [← branching.single node other target edge edge']
      exact .tail _ known
    · exact .tail _ (inv.closed other target edge' old)
  · intro other target pre preTarget edge' same same'
    rcases split same' with ⟨rfl, rfl⟩ | ⟨_, old'⟩
    · have parent := branching.single node other target edge edge'
      subst parent
      rcases split same with ⟨here, _⟩ | ⟨_, old⟩
      · exact absurd (here ▸ known) new
      · exact inv.early node pre old
    · rcases split same with ⟨rfl, _⟩ | ⟨_, old⟩
      · exact absurd (inv.closed other target edge' (visited old')) new
      · exact inv.rises other target pre preTarget edge' old old'
  · intro other target pre preTarget member same same' order
    rcases split same with ⟨rfl, rfl⟩ | ⟨different, old⟩
    · rcases split same' with ⟨rfl, _⟩ | ⟨_, old'⟩
      · exact .start
      · exact absurd (inv.early target preTarget old') (Nat.not_lt_of_le order)
    · have member' : other ∈ search.onStack := by
        rcases List.mem_cons.mp member with here | member
        · exact absurd here different
        · rwa [DepthFirst.State.onStack, onTop]
      rcases split same' with ⟨rfl, _⟩ | ⟨_, old'⟩
      · exact (inv.top_below onTop member').step edge
      · exact inv.waiting other target pre preTarget member' old old' order
  · intro other member
    exact Nat.lt_succ_of_lt (inv.ended other member)
  · intro other target pre preTarget member same same'
    have known' := (inv.searching.marked other).mpr (.inr member)
    rcases split same with ⟨rfl, _⟩ | ⟨_, old⟩
    · exact absurd known' new
    · rcases split same' with ⟨rfl, rfl⟩ | ⟨_, old'⟩
      · constructor
        · rintro ⟨_, late⟩
          exact absurd (inv.ended other member) (Nat.not_lt_of_le late)
        · intro down
          exact absurd ((inv.searching.marked _).mpr (.inr (inv.finished_below member down))) new
      · exact inv.done other target pre preTarget member old old'

theorem pop {node cursor : Nat} {below : List (Nat × Nat)} (onTop : search.stack = (node, cursor) :: below)
    (none' : (children node)[cursor]? = none) :
    Inv children nodes entry
      { state with subtreeLast := Function.update state.subtreeLast node (state.next - 1), stack := below }
      { search with stack := below, finished := node :: search.finished } := by
  have onStack : node ∈ search.onStack := by
    rw [DepthFirst.State.onStack, onTop]
    exact .head _
  have known := (inv.searching.marked node).mpr (.inl onStack)
  obtain ⟨own, numbered⟩ := Option.isSome_iff_exists.mp ((inv.numbered node).mpr known)
  have positive := inv.early node own numbered
  have apart : ∀ other ∈ search.finished, other ≠ node := by
    rintro other member rfl
    exact (List.nodup_append.mp inv.searching.distinct).2.2 other onStack other member rfl
  refine ⟨inv.searching.pop onTop none', rfl, inv.retreats, inv.numbered, inv.early, ?_, inv.closed, inv.rises, ?_, ?_, ?_⟩
  · intro other i member
    exact inv.fresh other i (by rw [onTop]; exact .tail _ member)
  · intro other target pre preTarget member
    apply inv.waiting
    rw [DepthFirst.State.onStack, onTop]
    exact .tail _ member
  · intro other member
    rcases List.mem_cons.mp member with rfl | old
    · simp only [Function.update_self]
      omega
    · simp only [Function.update_of_ne (apart other old)]
      exact inv.ended other old
  · intro other target pre preTarget member same same'
    rcases List.mem_cons.mp member with rfl | old
    · simp only [Function.update_self]
      constructor
      · rintro ⟨order, _⟩
        exact inv.waiting other target pre preTarget onStack same same' order
      · intro down
        have := inv.early target preTarget same'
        exact ⟨inv.rises_below down same same', by omega⟩
    · simp only [Function.update_of_ne (apart other old)]
      exact inv.done other target pre preTarget old same same'

/-- A turn of the walk is a turn of the search: no child is visited before. -/
theorem turn (branching : Branching children nodes entry) :
    Inv children nodes entry (Preorder.turn children state) (DepthFirst.turn children search) := by
  rw [Preorder.turn, DepthFirst.turn, inv.stack]
  cases onTop : search.stack with
  | nil => exact inv
  | cons frame below =>
    obtain ⟨node, cursor⟩ := frame
    simp only
    cases found : (children node)[cursor]? with
    | none => exact inv.pop onTop found
    | some child =>
      have new : child ∉ search.visited := inv.fresh node cursor (by rw [onTop]; exact .head _) cursor child (Nat.le_refl _) found
      have off : child ∉ search.onStack := fun onStack => new ((inv.searching.marked child).mpr (.inl onStack))
      simp only [if_neg off, if_neg new]
      exact inv.push branching onTop found

end Inv

/-- The nodes below the entry are numbered, and each has below it what is in its interval. -/
theorem intervals (branching : Branching children nodes entry) {state : State}
    (run : (turn children)^[DepthFirst.turns children nodes] (start entry) = state) :
    (∀ node, (state.preNum node).isSome ↔ Below children entry node) ∧
      ∀ node other pre preOther, state.preNum node = some pre → state.preNum other = some preOther →
        (pre ≤ preOther ∧ preOther ≤ state.subtreeLast node ↔ Below children node other) := by
  have each : ∀ count, Inv children nodes entry ((Preorder.turn children)^[count] (start entry))
      ((DepthFirst.turn children)^[count] (DepthFirst.start entry)) := by
    intro count
    induction count with
    | zero => exact start_inv branching
    | succ count ih =>
      rw [Function.iterate_succ_apply', Function.iterate_succ_apply']
      exact ih.turn branching
  have inv := each (DepthFirst.turns children nodes)
  have searched := DepthFirst.searched branching.inside branching.targets
  rw [run] at inv
  have numbered := fun node => (inv.numbered node).trans (searched.visited node)
  refine ⟨numbered, ?_⟩
  intro node other pre preOther found found'
  refine inv.done node other pre preOther ?_ found found'
  rw [searched.finished, ← numbered, found]
  rfl

end Rue.Lib.Preorder
