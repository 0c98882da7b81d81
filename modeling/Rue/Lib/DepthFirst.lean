import Rue.Lib.Ancestors
import Rue.Lib.Loops
import Rue.Lib.Search

/-! Depth-first search of a finite graph with an explicit stack. It visits what the
entry reaches, and every edge leads to a node finished before its source or back
along the stack. -/

namespace Rue.Lib.DepthFirst

variable (succ : Nat → List Nat)

/-- Each node on the stack with the index of its next successor, the top first;
the nodes left for good, the last first; and the edges found to go back. -/
structure State where
  visited : List Nat
  stack : List (Nat × Nat)
  finished : List Nat
  retreats : List (Nat × Nat)

def start (entry : Nat) : State := ⟨[entry], [(entry, 0)], [], []⟩

def State.onStack (state : State) : List Nat := state.stack.map Prod.fst

def turn (state : State) : State :=
  match state.stack with
  | [] => state
  | (node, index) :: below =>
    match (succ node)[index]? with
    | none => { state with stack := below, finished := node :: state.finished }
    | some target =>
      if target ∈ state.onStack then
        { state with stack := (node, index + 1) :: below, retreats := (node, target) :: state.retreats }
      else if target ∈ state.visited then { state with stack := (node, index + 1) :: below }
      else { state with visited := target :: state.visited, stack := (target, 0) :: (node, index + 1) :: below }

/-- One turn for each node and each edge. -/
def turns (nodes : Nat) : Nat := unmarkedEdges (fun node => node :: succ node) nodes []

variable {succ}

/-- The successors already looked at are finished, behind, or right above. -/
def Examined (finished : List Nat) (retreats : List (Nat × Nat)) : Option Nat → List (Nat × Nat) → Prop
  | _, [] => True
  | above, (node, index) :: below =>
    (∀ i < index, ∀ target, (succ node)[i]? = some target →
      target ∈ finished ∨ (node, target) ∈ retreats ∨ above = some target) ∧ Examined finished retreats (some node) below

abbrev Edge (succ : Nat → List Nat) (source target : Nat) : Prop := target ∈ succ source

structure Inv (succ : Nat → List Nat) (nodes entry : Nat) (state : State) : Prop where
  started : entry ∈ state.visited
  inside : ∀ node ∈ state.visited, node < nodes
  distinct : (state.onStack ++ state.finished).Nodup
  marked : ∀ node, node ∈ state.visited ↔ node ∈ state.onStack ∨ node ∈ state.finished
  reached : ∀ node ∈ state.visited, Reachable (Edge succ) entry node
  trail : ∀ node index below, state.stack = (node, index) :: below → Path (Edge succ) entry (below.map Prod.fst).reverse node
  within : ∀ frame ∈ state.stack, frame.2 ≤ (succ frame.1).length
  examined : @Examined succ state.finished state.retreats none state.stack
  ordered : ∀ later node earlier, state.finished = later ++ node :: earlier →
    ∀ target ∈ succ node, target ∈ earlier ∨ (node, target) ∈ state.retreats
  backward : ∀ edge ∈ state.retreats, Retreats (Edge succ) entry edge.1 edge.2
  known : ∀ edge ∈ state.retreats, edge.2 ∈ state.visited

theorem Examined.weaken {finished finished' : List Nat} {retreats retreats' : List (Nat × Nat)} {above : Option Nat}
    {stack : List (Nat × Nat)} (examined : @Examined succ finished retreats above stack)
    (more : ∀ node ∈ finished, node ∈ finished') (more' : ∀ edge ∈ retreats, edge ∈ retreats')
    (upper : ∀ node, above = some node → node ∈ finished') : @Examined succ finished' retreats' none stack := by
  have deep : ∀ {above : Option Nat} {stack}, @Examined succ finished retreats above stack →
      @Examined succ finished' retreats' above stack := by
    intro above stack examined
    induction stack generalizing above with
    | nil => trivial
    | cons frame below ih =>
      obtain ⟨top, rest⟩ := examined
      refine ⟨?_, ih rest⟩
      intro i before target found
      exact (top i before target found).imp (more target) (Or.imp_left (more' _))
  cases stack with
  | nil => trivial
  | cons frame below =>
    obtain ⟨top, rest⟩ := examined
    refine ⟨?_, deep rest⟩
    intro i before target found
    rcases top i before target found with done | back | up
    · exact .inl (more target done)
    · exact .inr (.inl (more' _ back))
    · exact .inl (upper target up)

theorem Examined.advance {finished : List Nat} {retreats retreats' : List (Nat × Nat)} {node index target : Nat}
    {below : List (Nat × Nat)} {above : Option Nat} (examined : @Examined succ finished retreats none ((node, index) :: below))
    (found : (succ node)[index]? = some target) (more : ∀ edge ∈ retreats, edge ∈ retreats')
    (placed : target ∈ finished ∨ (node, target) ∈ retreats' ∨ above = some target) :
    @Examined succ finished retreats' above ((node, index + 1) :: below) := by
  have top := examined.1
  obtain ⟨_, rest⟩ := examined.weaken (fun _ => id) more nofun
  refine ⟨?_, rest⟩
  intro i before other found'
  rcases Nat.lt_or_eq_of_le (Nat.le_of_lt_succ before) with earlier | rfl
  · rcases top i earlier other found' with done | back | up
    · exact .inl done
    · exact .inr (.inl (more _ back))
    · cases up
  · rw [found] at found'
    cases found'
    exact placed

variable {nodes entry : Nat} {state : State}

theorem start_inv (inside : entry < nodes) : Inv succ nodes entry (start entry) where
  started := .head _
  inside := by
    intro node member
    rwa [List.mem_singleton.mp member]
  distinct := List.nodup_singleton _
  marked := by simp [start, State.onStack]
  reached := by
    intro node member
    rw [List.mem_singleton.mp member]
    exact .start
  trail := by
    intro node index below same
    cases same
    exact .start
  within := by
    intro frame member
    rw [List.mem_singleton.mp member]
    exact Nat.zero_le _
  examined := ⟨nofun, trivial⟩
  ordered := by
    intro later node earlier same
    exact absurd same (by simp [start])
  backward := nofun
  known := nofun

theorem Inv.pop (inv : Inv succ nodes entry state) {node index : Nat} {below : List (Nat × Nat)}
    (top : state.stack = (node, index) :: below) (none' : (succ node)[index]? = none) :
    Inv succ nodes entry { state with stack := below, finished := node :: state.finished } := by
  have examined := inv.examined
  rw [top] at examined
  have distinct := inv.distinct
  rw [State.onStack, top, List.map_cons] at distinct
  refine ⟨inv.started, inv.inside, ?_, ?_, inv.reached, ?_, ?_, ?_, ?_, inv.backward, inv.known⟩
  · exact (List.perm_middle.nodup_iff).mpr distinct
  · intro other
    rw [inv.marked, State.onStack, top, List.map_cons, List.mem_cons, List.mem_cons, State.onStack]
    constructor
    · rintro ((here | onStack) | finished)
      · exact .inr (.inl here)
      · exact .inl onStack
      · exact .inr (.inr finished)
    · rintro (onStack | here | finished)
      · exact .inl (.inr onStack)
      · exact .inl (.inl here)
      · exact .inr finished
  · intro other i rest same
    have trail := inv.trail node index below top
    rw [show below = (other, i) :: rest from same, List.map_cons, List.reverse_cons] at trail
    exact trail.inv.1
  · intro frame member
    apply inv.within
    rw [top]
    exact .tail _ member
  · obtain ⟨_, rest⟩ := examined
    refine rest.weaken (fun _ => List.mem_cons_of_mem _) (fun _ => id) ?_
    intro other same
    cases same
    exact .head _
  · intro later other earlier same target edge
    cases later with
    | nil =>
      obtain ⟨rfl, rfl⟩ := List.cons.inj same
      obtain ⟨i, found⟩ := List.mem_iff_getElem?.mp edge
      have before : i < index := by
        have := (List.getElem?_eq_some_iff.mp found).1
        have := List.getElem?_eq_none_iff.mp none'
        omega
      rcases examined.1 i before target found with done | back | up
      · exact .inl done
      · exact .inr back
      · cases up
    | cons first later =>
      obtain ⟨-, same⟩ := List.cons.inj same
      exact inv.ordered later other earlier same target edge

/-- What looking at a successor of the top keeps, wherever it leads. -/
theorem Inv.look (inv : Inv succ nodes entry state) {node index target : Nat} {below : List (Nat × Nat)}
    (top : state.stack = (node, index) :: below) (found : (succ node)[index]? = some target)
    {retreats : List (Nat × Nat)} (more : ∀ edge ∈ state.retreats, edge ∈ retreats)
    (placed : target ∈ state.finished ∨ (node, target) ∈ retreats)
    (backward : ∀ edge ∈ retreats, Retreats (Edge succ) entry edge.1 edge.2 ∧ edge.2 ∈ state.visited) :
    Inv succ nodes entry { state with stack := (node, index + 1) :: below, retreats } := by
  have examined := inv.examined
  rw [top] at examined
  have same : (State.mk state.visited ((node, index + 1) :: below) state.finished retreats).onStack = state.onStack := by
    rw [State.onStack, State.onStack, top]
    rfl
  refine ⟨inv.started, inv.inside, ?_, ?_, inv.reached, ?_, ?_, ?_, ?_, fun edge member => (backward edge member).1,
    fun edge member => (backward edge member).2⟩
  · rw [same]
    exact inv.distinct
  · rw [same]
    exact inv.marked
  · intro other i rest same
    cases same
    exact inv.trail node index below top
  · intro frame member
    rcases List.mem_cons.mp member with rfl | member
    · exact (List.getElem?_eq_some_iff.mp found).1
    · apply inv.within
      rw [top]
      exact .tail _ member
  · exact examined.advance found more (placed.imp_right .inl)
  · intro later other earlier same target edge
    exact (inv.ordered later other earlier same target edge).imp_right (more _)

theorem Inv.push (inv : Inv succ nodes entry state) (targets : ∀ node < nodes, ∀ target ∈ succ node, target < nodes)
    {node index target : Nat} {below : List (Nat × Nat)} (top : state.stack = (node, index) :: below)
    (found : (succ node)[index]? = some target) (fresh : target ∉ state.visited) :
    Inv succ nodes entry
      { state with visited := target :: state.visited, stack := (target, 0) :: (node, index + 1) :: below } := by
  have edge := List.mem_of_getElem? found
  have onStack : node ∈ state.onStack := by
    rw [State.onStack, top]
    exact .head _
  have known := (inv.marked node).mpr (.inl onStack)
  have examined := inv.examined
  rw [top] at examined
  have same : (State.mk (target :: state.visited) ((target, 0) :: (node, index + 1) :: below) state.finished state.retreats).onStack =
      target :: state.onStack := by
    rw [State.onStack, State.onStack, top]
    rfl
  refine ⟨.tail _ inv.started, ?_, ?_, ?_, ?_, ?_, ?_, ?_, inv.ordered, inv.backward,
    fun edge member => .tail _ (inv.known edge member)⟩
  · intro other member
    rcases List.mem_cons.mp member with rfl | member
    · exact targets node (inv.inside node known) other edge
    · exact inv.inside other member
  · rw [same, List.cons_append, List.nodup_cons]
    refine ⟨?_, inv.distinct⟩
    intro again
    exact fresh ((inv.marked target).mpr (List.mem_append.mp again))
  · intro other
    rw [same, List.mem_cons, List.mem_cons, inv.marked, or_assoc]
  · intro other member
    rcases List.mem_cons.mp member with rfl | member
    · exact (inv.reached node known).step edge
    · exact inv.reached other member
  · intro other i rest same
    cases same
    rw [List.map_cons, List.reverse_cons]
    exact (inv.trail node index below top).step edge
  · intro frame member
    rcases List.mem_cons.mp member with rfl | member
    · exact Nat.zero_le _
    · rcases List.mem_cons.mp member with rfl | member
      · exact (List.getElem?_eq_some_iff.mp found).1
      · apply inv.within
        rw [top]
        exact .tail _ member
  · refine ⟨nofun, ?_⟩
    exact examined.advance found (fun _ => id) (.inr (.inr rfl))

/-- The top of the stack was reached by way of the nodes below it. -/
theorem Inv.retreats (inv : Inv succ nodes entry state) {node index target : Nat} {below : List (Nat × Nat)}
    (top : state.stack = (node, index) :: below) (edge : target ∈ succ node) (onStack : target ∈ state.onStack) :
    Retreats (Edge succ) entry node target := by
  have path := inv.trail node index below top
  have distinct := (List.nodup_append.mp inv.distinct).1
  rw [State.onStack, top, List.map_cons] at onStack distinct
  have distinct' : ((below.map Prod.fst).reverse ++ [node]).Nodup := by
    rw [← List.reverse_cons]
    exact List.nodup_reverse.mpr distinct
  refine ⟨edge, ?_⟩
  rcases List.mem_cons.mp onStack with rfl | deeper
  · exact ⟨_, [], path, .start, distinct'⟩
  · obtain ⟨before, after, same⟩ := List.append_of_mem (List.mem_reverse.mpr deeper)
    rw [same] at path distinct'
    refine ⟨before, target :: after, path.split.1, path.split.2, ?_⟩
    rw [← List.append_assoc]
    exact distinct'

theorem Inv.turn (inv : Inv succ nodes entry state) (targets : ∀ node < nodes, ∀ target ∈ succ node, target < nodes) :
    Inv succ nodes entry (turn succ state) := by
  rw [DepthFirst.turn]
  split
  next => exact inv
  next node index below top =>
    split
    next none' => exact inv.pop top none'
    next target found =>
      split
      next onStack =>
        refine inv.look top found (fun _ => List.mem_cons_of_mem _) (.inr (.head _)) ?_
        intro edge member
        rcases List.mem_cons.mp member with rfl | member
        · exact ⟨inv.retreats top (List.mem_of_getElem? found) onStack, (inv.marked _).mpr (.inl onStack)⟩
        · exact ⟨inv.backward edge member, inv.known edge member⟩
      next off =>
        split
        next known =>
          exact inv.look top found (fun _ => id) (.inl (((inv.marked target).mp known).resolve_left off))
            fun edge member => ⟨inv.backward edge member, inv.known edge member⟩
        next fresh => exact inv.push targets top found fresh

/-- The turns that are left: for each unvisited node one and its edges, and for each
node on the stack one and the edges not looked at. -/
def remaining (succ : Nat → List Nat) (nodes : Nat) (state : State) : Nat :=
  unmarkedEdges (fun node => node :: succ node) nodes state.visited +
    (state.stack.map fun frame => (succ frame.1).length - frame.2 + 1).sum

theorem remaining_turn (inv : Inv succ nodes entry state) (targets : ∀ node < nodes, ∀ target ∈ succ node, target < nodes) :
    state.stack = [] ∧ DepthFirst.turn succ state = state ∨
      remaining succ nodes (DepthFirst.turn succ state) + 1 = remaining succ nodes state := by
  rw [DepthFirst.turn]
  split
  next empty => exact .inl ⟨empty, rfl⟩
  next node index below top =>
    right
    have bound := inv.within (node, index) (by rw [top]; exact .head _)
    split
    next none' =>
      have full := List.getElem?_eq_none_iff.mp none'
      simp only [remaining, top, List.map_cons, List.sum_cons]
      omega
    next target found =>
      have few := (List.getElem?_eq_some_iff.mp found).1
      split
      next =>
        simp only [remaining, top, List.map_cons, List.sum_cons]
        omega
      next =>
        split
        next =>
          simp only [remaining, top, List.map_cons, List.sum_cons]
          omega
        next fresh =>
          have known : node ∈ state.visited := (inv.marked node).mpr (.inl (by rw [State.onStack, top]; exact .head _))
          have inside := targets node (inv.inside node known) target (List.mem_of_getElem? found)
          have weight := @unmarkedEdges_cons (fun node => node :: succ node) nodes _ _ inside fresh
          simp only [remaining, top, List.map_cons, List.sum_cons, List.length_cons] at weight ⊢
          omega

theorem Inv.iterate (inside : entry < nodes) (targets : ∀ node < nodes, ∀ target ∈ succ node, target < nodes) (count : Nat) :
    Inv succ nodes entry ((DepthFirst.turn succ)^[count] (start entry)) ∧
      (((DepthFirst.turn succ)^[count] (start entry)).stack = [] ∨
        remaining succ nodes ((DepthFirst.turn succ)^[count] (start entry)) + count = turns succ nodes) := by
  induction count with
  | zero =>
    refine ⟨start_inv inside, .inr ?_⟩
    have weight := @unmarkedEdges_cons (fun node => node :: succ node) nodes [] entry inside nofun
    simp only [Function.iterate_zero, id_eq, remaining, start, turns, List.map_cons, List.map_nil, List.sum_cons, List.sum_nil,
      List.length_cons] at weight ⊢
    omega
  | succ count ih =>
    obtain ⟨inv, progress⟩ := ih
    rw [Function.iterate_succ_apply']
    refine ⟨inv.turn targets, ?_⟩
    rcases remaining_turn inv targets with ⟨empty, same⟩ | fewer
    · rw [same]
      exact .inl empty
    · rcases progress with empty | left
      · left
        rw [DepthFirst.turn, empty]
        exact empty
      · right
        omega

structure Searched (succ : Nat → List Nat) (entry : Nat) (state : State) : Prop where
  empty : state.stack = []
  visited : ∀ node, node ∈ state.visited ↔ Reachable (Edge succ) entry node
  finished : ∀ node, node ∈ state.finished ↔ Reachable (Edge succ) entry node
  distinct : state.finished.Nodup
  ordered : ∀ later node earlier, state.finished = later ++ node :: earlier →
    ∀ target ∈ succ node, target ∈ earlier ∨ (node, target) ∈ state.retreats
  backward : ∀ edge ∈ state.retreats, Retreats (Edge succ) entry edge.1 edge.2

/-- Every search ends, having visited what the entry reaches. -/
theorem searched (inside : entry < nodes) (targets : ∀ node < nodes, ∀ target ∈ succ node, target < nodes) :
    Searched succ entry ((DepthFirst.turn succ)^[turns succ nodes] (start entry)) := by
  obtain ⟨inv, progress⟩ := Inv.iterate inside targets (turns succ nodes)
  generalize (DepthFirst.turn succ)^[turns succ nodes] (start entry) = state at inv progress
  have empty : state.stack = [] := by
    rcases progress with empty | left
    · exact empty
    · cases same : state.stack with
      | nil => rfl
      | cons frame below =>
        rw [remaining, same, List.map_cons, List.sum_cons] at left
        omega
  have all : ∀ node, node ∈ state.visited ↔ node ∈ state.finished := by
    intro node
    rw [inv.marked, State.onStack, empty]
    simp
  have visited : ∀ node, node ∈ state.visited ↔ Reachable (Edge succ) entry node := by
    intro node
    refine ⟨inv.reached node, ?_⟩
    rintro ⟨done, path⟩
    refine path.invariant inv.started ?_
    intro source target known edge
    obtain ⟨later, earlier, same⟩ := List.append_of_mem ((all source).mp known)
    rcases inv.ordered later source earlier same target edge with before | back
    · rw [all, same]
      exact List.mem_append_right _ (.tail _ before)
    · exact inv.known _ back
  refine ⟨empty, visited, fun node => (all node).symm.trans (visited node), ?_, inv.ordered, inv.backward⟩
  exact (List.nodup_append.mp inv.distinct).2.1

/-- Nodes by when they were finished, so that edges fall unless they go back. -/
def rank (state : State) (node : Nat) : Nat := state.finished.reverse.idxOf node

theorem rank_eq {later earlier : List Nat} {node : Nat} (distinct : state.finished.Nodup)
    (same : state.finished = later ++ node :: earlier) : rank state node = earlier.length := by
  rw [same, List.nodup_append, List.nodup_cons] at distinct
  have split : state.finished.reverse = earlier.reverse ++ node :: later.reverse := by simp [same]
  have absent : node ∉ earlier.reverse := by
    rw [List.mem_reverse]
    exact distinct.2.1.1
  rw [rank, split, List.idxOf_append_of_notMem absent, List.idxOf_cons_self, List.length_reverse, Nat.add_zero]

theorem rank_lt {later earlier : List Nat} {node other : Nat} (distinct : state.finished.Nodup)
    (same : state.finished = later ++ node :: earlier) (before : other ∈ earlier) : rank state other < rank state node := by
  obtain ⟨between, first, rfl⟩ := List.append_of_mem before
  have same' : state.finished = (later ++ node :: between) ++ other :: first := by simp [same]
  rw [rank_eq distinct same, rank_eq distinct same', List.length_append, List.length_cons]
  omega

theorem Searched.falls (searched : Searched succ entry state) {source target : Nat}
    (reached : Reachable (Edge succ) entry source) (edge : target ∈ succ source) :
    rank state target < rank state source ∨ (source, target) ∈ state.retreats := by
  obtain ⟨later, earlier, same⟩ := List.append_of_mem ((searched.finished source).mpr reached)
  exact (searched.ordered later source earlier same target edge).imp_left (rank_lt searched.distinct same)

/-- A node is finished before the one that the search came from. -/
def Outlived (succ : Nat → List Nat) (entry : Nat) (state : State) : Prop :=
  ∀ later node earlier, state.finished = later ++ node :: earlier →
    node = entry ∨ ∃ source ∈ state.visited, node ∈ succ source ∧ source ∉ node :: earlier

theorem Outlived.turn (outlived : Outlived succ entry state) (inv : Inv succ nodes entry state) :
    Outlived succ entry (DepthFirst.turn succ state) := by
  rw [DepthFirst.turn]
  split
  next => exact outlived
  next node index below top =>
    have trail := inv.trail node index below top
    have distinct := inv.distinct
    rw [State.onStack, top, List.map_cons] at distinct
    split
    next none' =>
      intro later other earlier same
      cases later with
      | nil =>
        obtain ⟨rfl, rfl⟩ := List.cons.inj same
        cases below with
        | nil => exact .inl trail.start_eq.symm
        | cons frame rest =>
          rw [List.map_cons, List.reverse_cons] at trail
          have onStack : frame.1 ∈ state.onStack := by
            rw [State.onStack, top]
            exact .tail _ (.head _)
          refine .inr ⟨frame.1, (inv.marked _).mpr (.inl onStack), trail.inv.2, ?_⟩
          intro again
          rw [List.map_cons, List.cons_append, List.cons_append, List.nodup_cons, List.nodup_cons] at distinct
          rcases List.mem_cons.mp again with here | before
          · exact distinct.1 (here ▸ .head _)
          · exact distinct.2.1 (List.mem_append_right _ before)
      | cons first later => exact outlived later other earlier (List.cons.inj same).2
    next target found =>
      split
      next => exact outlived
      next =>
        split
        next => exact outlived
        next =>
          intro later other earlier same
          refine (outlived later other earlier same).imp_right ?_
          rintro ⟨source, visited, edge, after⟩
          exact ⟨source, .tail _ visited, edge, after⟩

/-- Into every node but the entry there is an edge that falls. -/
theorem forward (inside : entry < nodes) (targets : ∀ node < nodes, ∀ target ∈ succ node, target < nodes) {final : State}
    (run : (DepthFirst.turn succ)^[turns succ nodes] (start entry) = final) {node : Nat}
    (reached : Reachable (Edge succ) entry node) (different : node ≠ entry) :
    ∃ source, Reachable (Edge succ) entry source ∧ node ∈ succ source ∧ rank final node < rank final source := by
  have each : ∀ count, Outlived succ entry ((DepthFirst.turn succ)^[count] (start entry)) := by
    intro count
    induction count with
    | zero =>
      intro later other earlier same
      exact absurd same (by simp [start])
    | succ count ih =>
      rw [Function.iterate_succ_apply']
      exact ih.turn (Inv.iterate inside targets count).1
  have outlived := each (turns succ nodes)
  have searched := searched inside targets
  rw [run] at outlived searched
  obtain ⟨later, earlier, same⟩ := List.append_of_mem ((searched.finished node).mpr reached)
  obtain ⟨source, visited, edge, after⟩ := (outlived later node earlier same).resolve_left different
  have reached' := (searched.visited source).mp visited
  refine ⟨source, reached', edge, ?_⟩
  have member := (searched.finished source).mpr reached'
  rw [same] at member
  rcases List.mem_append.mp member with late | early
  · obtain ⟨before, between, rfl⟩ := List.append_of_mem late
    apply rank_lt searched.distinct (same.trans (List.append_assoc ..))
    simp
  · exact absurd early after

/-- The order in which a search leaves the nodes numbers them. -/
theorem numbered (inside : entry < nodes) (targets : ∀ node < nodes, ∀ target ∈ succ node, target < nodes) {final : State}
    (run : (DepthFirst.turn succ)^[turns succ nodes] (start entry) = final) : Numbered (Edge succ) entry (rank final) := by
  have searched := searched inside targets
  rw [run] at searched
  have known : ∀ {node}, Reachable (Edge succ) entry node → node ∈ final.finished.reverse := by
    intro node reached
    rw [List.mem_reverse, searched.finished]
    exact reached
  refine ⟨?_, ?_, ?_⟩
  · intro x y reached reached' same
    exact (List.idxOf_inj (known reached)).mp same
  · intro x reached
    -- Edges that fall lead back to the entry.
    induction gap : final.finished.length - rank final x using Nat.strongRecOn generalizing x with
    | ind bound ih =>
      by_cases here : x = entry
      · rw [here]
      · obtain ⟨source, reached', _, more⟩ := forward inside targets run reached here
        have below : rank final source < final.finished.length := by
          rw [← List.length_reverse]
          exact List.idxOf_lt_length_of_mem (known reached')
        exact Nat.le_trans (Nat.le_of_lt more) (ih _ (by omega) source reached' rfl)
  · intro x reached different
    exact forward inside targets run reached different

end Rue.Lib.DepthFirst
