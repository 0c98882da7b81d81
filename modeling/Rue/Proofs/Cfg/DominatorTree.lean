import Mathlib
import Rue.Cfg.DominatorTree
import Rue.Lib.DominatorSweeps
import Rue.Proofs.Cfg.Certificate

/-! The tables of a graph hold its edges, and the search numbers what the entry reaches
in postorder. -/

namespace Rue

open Lib

namespace Adjacency

variable {cfg : Cfg} {n : Nat}

/-- The flat successors of the blocks before a position. -/
def flat (cfg : Cfg) (n : Nat) : List BlockId := (List.range n).flatMap cfg.succs

theorem flat_succ (cfg : Cfg) (n : Nat) : flat cfg (n + 1) = flat cfg n ++ cfg.succs n := by
  simp [flat, List.range_succ]

theorem flat_split (cfg : Cfg) {block : Nat} (inside : block < n) :
    ∃ rest, flat cfg n = flat cfg block ++ (cfg.succs block ++ rest) := by
  induction n with
  | zero => exact absurd inside (Nat.not_lt_zero _)
  | succ n ih =>
    rw [flat_succ]
    rcases Nat.lt_or_eq_of_le (Nat.le_of_lt_succ inside) with earlier | rfl
    · obtain ⟨rest, same⟩ := ih earlier
      exact ⟨rest ++ cfg.succs n, by simp [same]⟩
    · exact ⟨[], by simp⟩

theorem successors_eq (cfg : Cfg) (n : Nat) :
    (successors cfg n).targets = flat cfg n ∧ ∀ index ≤ n, (successors cfg n).offsets index = (flat cfg index).length := by
  induction n with
  | zero =>
    refine ⟨rfl, ?_⟩
    intro index few
    rw [Nat.le_zero.mp few]
    rfl
  | succ n ih =>
    obtain ⟨targets, offsets⟩ := ih
    simp only [successors, List.range_succ, List.foldl_append, List.foldl_cons, List.foldl_nil] at targets offsets ⊢
    refine ⟨by rw [targets, flat_succ], ?_⟩
    intro index few
    by_cases last : index = n + 1
    · rw [last, Function.update_self, targets, flat_succ]
    · rw [Function.update_of_ne last]
      exact offsets index (by omega)

theorem successors_of {block : BlockId} (inside : block < n) : (successors cfg n).of block = cfg.succs block := by
  obtain ⟨targets, offsets⟩ := successors_eq cfg n
  obtain ⟨rest, same⟩ := flat_split cfg inside
  rw [of, targets, offsets block (Nat.le_of_lt inside), offsets (block + 1) inside, same, flat_succ, List.length_append,
    Nat.add_sub_cancel_left, List.drop_left, List.take_left]

/-- Between its bounds a filed table holds the row of a key. -/
theorem filed_of {keys total : Nat} {offsets : Csr.Table} {edges : List (BlockId × BlockId)} (inside : ∀ edge ∈ edges, edge.1 < keys)
    (bounds : ∀ key ≤ keys, offsets key = Csr.bound edges key) (room : edges.length ≤ total) {key : BlockId} (named : key < keys) :
    (filed offsets edges total).of key = Csr.row edges key := by
  rw [← Csr.slice_fill inside offsets (fun _ => 0) (fun key named => bounds key (Nat.le_of_lt named)) named]
  have fits : Csr.bound edges (key + 1) ≤ total := Nat.le_trans List.countP_le_length room
  simp only [of, filed, bounds key (Nat.le_of_lt named), bounds (key + 1) named, Csr.slice]
  rw [← List.map_drop, ← List.map_take, List.range_eq_range', List.drop_range', Nat.zero_add, Nat.mul_one,
    List.take_range'_of_length_ge (by omega)]

theorem reversed_of (targets : ∀ block < n, ∀ target ∈ cfg.succs block, target < n) (whole : cfg.blockCount = n) {block : BlockId}
    (inside : block < n) : ((successors cfg n).reversed n).of block = cfg.preds block := by
  have rows : ((List.range n).flatMap fun source => ((successors cfg n).of source).map fun target => (target, source)) =
      (List.range n).flatMap fun source => (cfg.succs source).map fun target => (target, source) := by
    apply List.flatMap_congr
    intro source member
    rw [successors_of (List.mem_range.mp member)]
  have keys : ((List.range n).flatMap fun source => (cfg.succs source).map fun target => (target, source)).map Prod.fst =
      (successors cfg n).targets := by
    simp [(successors_eq cfg n).1, flat, List.map_flatMap, Function.comp_def]
  have within : ∀ edge ∈ (List.range n).flatMap fun source => (cfg.succs source).map fun target => (target, source), edge.1 < n := by
    intro edge member
    obtain ⟨source, small, pair⟩ := List.mem_flatMap.mp member
    obtain ⟨target, found, rfl⟩ := List.mem_map.mp pair
    exact targets source (List.mem_range.mp small) target found
  rw [reversed, rows, filed_of within ?_ ?_ inside]
  · simp [Csr.row, Cfg.preds, whole, List.filter_flatMap, List.map_flatMap, List.filter_map, Function.comp_def]
  · intro key named
    rw [← Csr.prefixSums_counts _ n key named]
    apply congrFun (congrArg (Csr.prefixSums n) _)
    apply Csr.counts_congr
    simp [keys, Function.comp_def]
  · rw [← keys, List.length_map]

end Adjacency

namespace Postorder

variable {cfg : Cfg} {succs : Adjacency}

/-- The search as a depth-first search, with the numbers of what it has left. -/
structure Follows (state : Postorder) (search : DepthFirst.State) : Prop where
  visited : ∀ block, state.visited block = decide (block ∈ search.visited)
  stack : state.stack = search.stack
  order : state.postOrder = search.finished.reverse
  numbers : ∀ block, state.postNum block = if block ∈ search.finished then some (DepthFirst.rank search block) else none

theorem start_follows (entry : BlockId) : Follows (start entry) (DepthFirst.start entry) := by
  refine ⟨?_, rfl, rfl, fun _ => rfl⟩
  intro block
  by_cases here : block = entry
  · simp [start, DepthFirst.start, here]
  · simp [start, DepthFirst.start, here]

theorem turn_follows (tables : ∀ block < cfg.blockCount, succs.of block = cfg.succs block) {state : Postorder}
    {search : DepthFirst.State} (follows : Follows state search) (inv : DepthFirst.Inv cfg.succs cfg.blockCount cfg.entry search) :
    Follows (turn succs state) (DepthFirst.turn cfg.succs search) := by
  rw [turn, DepthFirst.turn, follows.stack]
  cases top : search.stack with
  | nil => exact follows
  | cons frame below =>
    obtain ⟨block, idx⟩ := frame
    have onStack : block ∈ search.onStack := by
      rw [DepthFirst.State.onStack, top]
      exact .head _
    have inside := inv.inside block ((inv.marked block).mpr (.inl onStack))
    simp only [tables block inside]
    cases found : (cfg.succs block)[idx]? with
    | none =>
      have left : block ∉ search.finished := fun again =>
        (List.nodup_append.mp inv.distinct).2.2 block onStack block again rfl
      refine ⟨follows.visited, rfl, ?_, ?_⟩
      · simp [follows.order]
      · intro other
        by_cases here : other = block
        · subst here
          simp only [Function.update_self, List.mem_cons, true_or, if_true]
          rw [@DepthFirst.rank_eq _ [] search.finished _ ?_ rfl, follows.order, List.length_reverse]
          exact (inv.pop top found).distinct.of_append_right
        · simp only [Function.update_of_ne here, follows.numbers, List.mem_cons, here, false_or]
          by_cases known : other ∈ search.finished
          · rw [if_pos known, if_pos known]
            simp only [DepthFirst.rank, List.reverse_cons]
            rw [List.idxOf_append_of_mem (List.mem_reverse.mpr known)]
          · rw [if_neg known, if_neg known]
    | some s =>
      simp only [follows.visited s, Bool.not_eq_true', decide_eq_false_iff_not]
      by_cases known : s ∈ search.visited
      · rw [if_neg (not_not.mpr known), if_pos known]
        split
        next => exact ⟨follows.visited, rfl, follows.order, follows.numbers⟩
        next => exact ⟨follows.visited, rfl, follows.order, follows.numbers⟩
      · have off : s ∉ search.onStack := fun again => known ((inv.marked s).mpr (.inl again))
        rw [if_pos known, if_neg off, if_neg known]
        refine ⟨?_, rfl, follows.order, follows.numbers⟩
        intro other
        by_cases here : other = s
        · simp [here]
        · simp [here, follows.visited]

/-- The blocks in reverse postorder and their numbers: distinct, the entry's the highest,
and into every other block that is reached an edge from a block with a higher one. -/
structure Ordered (cfg : Cfg) (num : BlockId → Nat) (search : Postorder) : Prop where
  numbered : Numbered cfg.Edge cfg.entry num
  numbers : ∀ block, cfg.Live block → search.postNum block = some (num block)
  others : ∀ block, ¬cfg.Live block → search.postNum block = none
  few : ∀ block, cfg.Live block → num block < cfg.blockCount
  order : ∀ block, block ∈ search.postOrder ↔ cfg.Live block
  position : ∀ before block after, search.postOrder.reverse = before ++ block :: after → num block = after.length

theorem run_ordered (bounds : cfg.InBounds) (tables : ∀ block < cfg.blockCount, succs.of block = cfg.succs block) :
    ∃ num, Ordered cfg num (run cfg succs) := by
  have weights : DepthFirst.turns succs.of cfg.blockCount = DepthFirst.turns cfg.succs cfg.blockCount := by
    simp only [DepthFirst.turns, unmarkedEdges]
    apply Finset.sum_congr rfl
    intro block member
    rw [tables block (Finset.mem_range.mp (Finset.mem_filter.mp member).1)]
  have follows : ∀ count, Follows ((turn succs)^[count] (start cfg.entry))
      ((DepthFirst.turn cfg.succs)^[count] (DepthFirst.start cfg.entry)) := by
    intro count
    induction count with
    | zero => exact start_follows cfg.entry
    | succ count ih =>
      rw [Function.iterate_succ_apply', Function.iterate_succ_apply']
      exact turn_follows tables ih (DepthFirst.Inv.iterate bounds.entry bounds.targets count).1
  have follows := follows (DepthFirst.turns cfg.succs cfg.blockCount)
  have searched := DepthFirst.searched bounds.entry bounds.targets
  rw [run, if_pos bounds.entry, weights]
  generalize run : (DepthFirst.turn cfg.succs)^[DepthFirst.turns cfg.succs cfg.blockCount] (DepthFirst.start cfg.entry) = search
    at follows searched
  refine ⟨DepthFirst.rank search, DepthFirst.numbered bounds.entry bounds.targets run, ?_, ?_, ?_, ?_, ?_⟩
  · intro block live
    rw [follows.numbers, if_pos ((searched.finished block).mpr live)]
  · intro block dead
    rw [follows.numbers, if_neg fun member => dead ((searched.finished block).mp member)]
  · intro block live
    have below : DepthFirst.rank search block < search.finished.reverse.length :=
      List.idxOf_lt_length_of_mem (List.mem_reverse.mpr ((searched.finished block).mpr live))
    rw [List.length_reverse] at below
    apply Nat.lt_of_lt_of_le below
    apply length_le_of_inside searched.distinct
    intro node member
    exact Cfg.Live.inBounds bounds ((searched.finished node).mp member)
  · intro block
    rw [follows.order, List.mem_reverse]
    exact searched.finished block
  · intro before block after same
    rw [follows.order, List.reverse_reverse] at same
    exact DepthFirst.rank_eq searched.distinct same

end Postorder

end Rue

/-! The sweeps end with the immediate dominators, and the intervals answer dominance. -/

namespace Rue

/-- Some path leads to the block, from an entry that is a block itself. -/
def Cfg.Reached (cfg : Cfg) (block : BlockId) : Prop := cfg.entry < cfg.blockCount ∧ cfg.Live block

/-- The strict dominator that every other one dominates. -/
def Cfg.ImmediatelyDominates (cfg : Cfg) (first second : BlockId) : Prop :=
  first ≠ second ∧ cfg.Dominates first second ∧ ∀ other, other ≠ second → cfg.Dominates other second → cfg.Dominates other first

theorem Cfg.ImmediatelyDominates.unique {cfg : Cfg} {one other b : BlockId} (live : cfg.Live b) (first : cfg.ImmediatelyDominates one b)
    (second : cfg.ImmediatelyDominates other b) : one = other := by
  obtain ⟨different, dominates, closest⟩ := first
  obtain ⟨different', dominates', closest'⟩ := second
  exact (closest' one different dominates).antisymm (dominates'.reachable live) (closest other different' dominates')

end Rue

namespace Rue.DominatorTree

open Lib

section

variable {edge : BlockId → BlockId → Prop} {entry : BlockId} {num : BlockId → Nat} {idom : BlockId → Option BlockId}
  {postNum : BlockId → Option Nat} {a b finger : BlockId} {fuel bound : Nat}

/-- Advancing skips ancestors with smaller numbers only. -/
theorem advance_spec (numbered : Numbered edge entry num) (tree : Tree edge entry num idom)
    (numbers : ∀ block, Reachable edge entry block → postNum block = some (num block)) (inTree : (idom finger).isSome)
    (low : bound ≤ num entry) (enough : bound - num finger < fuel) :
    ∃ up, advance idom postNum fuel finger bound = some up ∧ Anc idom finger up ∧ bound ≤ num up ∧
      (bound ≤ num finger → up = finger) ∧ ∀ z, Anc idom finger z → bound ≤ num z → Anc idom up z := by
  induction fuel generalizing finger with
  | zero => exact absurd enough (Nat.not_lt_zero _)
  | succ fuel ih =>
    rw [advance, numbers finger (tree.reached finger inTree)]
    simp only [Option.bind_eq_bind, Option.bind_some]
    split
    next below =>
      have other : finger ≠ entry := by
        rintro rfl
        exact absurd below (Nat.not_lt_of_le low)
      obtain ⟨parent, own⟩ := Option.isSome_iff_exists.mp inTree
      obtain ⟨inTree', more⟩ := tree.climbs finger parent own other
      obtain ⟨up, found, above, high, _, rest⟩ := ih inTree' (by omega)
      rw [own, Option.bind_some]
      refine ⟨up, found, .up own above, high, fun again => absurd below (Nat.not_lt_of_le again), ?_⟩
      intro z over' order
      apply rest z ?_ order
      apply over'.strict ?_ own
      rintro rfl
      exact absurd below (Nat.not_lt_of_le order)
    next high =>
      exact ⟨finger, rfl, .refl idom finger, Nat.le_of_not_lt high, fun _ => rfl, fun z over' _ => over'⟩

theorem intersect_spec (numbered : Numbered edge entry num) (tree : Tree edge entry num idom)
    (numbers : ∀ block, Reachable edge entry block → postNum block = some (num block)) (inTree : (idom a).isSome)
    (inTree' : (idom b).isSome) (enough : 2 * num entry + 2 - num a - num b ≤ fuel) :
    ∃ meet, intersect idom postNum fuel a b = some meet ∧ Anc idom a meet ∧ Anc idom b meet ∧
      ∀ z, Anc idom a z → Anc idom b z → Anc idom meet z := by
  have limit : ∀ {block}, (idom block).isSome → num block ≤ num entry := fun placed =>
    numbered.highest _ (tree.reached _ placed)
  induction fuel generalizing a b with
  | zero =>
    have := limit inTree
    have := limit inTree'
    omega
  | succ fuel ih =>
    have lowA := limit inTree
    have lowB := limit inTree'
    rw [intersect]
    split
    next same =>
      subst same
      exact ⟨a, rfl, .refl idom a, .refl idom a, fun z above _ => above⟩
    next different =>
      have apart : num a ≠ num b := fun same => different (numbered.distinct a b (tree.reached a inTree) (tree.reached b inTree') same)
      have enoughA : num b - num a < fuel := by omega
      obtain ⟨a', foundA, aboveA, highA, stayA, restA⟩ := advance_spec numbered tree numbers inTree lowB enoughA
      obtain ⟨placedA, riseA⟩ := tree.rises aboveA inTree
      have limitA := limit placedA
      have sooner : num a ≤ num b ∨ num a' = num a := (Nat.le_total (num a) (num b)).imp id fun late => by rw [stayA late]
      have enoughB : num a' - num b < fuel := by omega
      obtain ⟨b', foundB, aboveB, highB, _, restB⟩ := advance_spec numbered tree numbers inTree' limitA enoughB
      obtain ⟨placedB, _⟩ := tree.rises aboveB inTree'
      rw [numbers b (tree.reached b inTree')]
      simp only [Option.bind_eq_bind, Option.bind_some, foundA, numbers a' (tree.reached a' placedA), foundB]
      obtain ⟨meet, found, upA, upB, lowest⟩ := ih placedA placedB (by omega)
      refine ⟨meet, found, aboveA.trans upA, aboveB.trans upB, ?_⟩
      intro z overA overB
      have high := (tree.rises overB inTree').2
      have overA' := restA z overA high
      exact lowest z overA' (restB z overB (tree.rises overA' placedA).2)

/-- What the predecessors looked at have in common. -/
def Gathered (idom : BlockId → Option BlockId) (looked : List BlockId) : Option BlockId → Prop
  | none => ∀ p ∈ looked, idom p = none
  | some cur => (idom cur).isSome ∧ (∀ p ∈ looked, (idom p).isSome → Anc idom p cur) ∧
    ∀ z, (∀ p ∈ looked, (idom p).isSome → Anc idom p z) → Anc idom cur z

theorem newIdom_gathered (numbered : Numbered edge entry num) (tree : Tree edge entry num idom)
    (numbers : ∀ block, Reachable edge entry block → postNum block = some (num block)) (enough : 2 * num entry + 2 ≤ fuel)
    (preds : List BlockId) : ∃ new, newIdom idom postNum fuel preds = some new ∧ Gathered idom preds new := by
  induction preds using List.reverseRecOn with
  | nil => exact ⟨none, rfl, nofun⟩
  | append_singleton looked p ih =>
    obtain ⟨new, found, gathered⟩ := ih
    rw [newIdom] at found
    rw [newIdom, List.foldlM_append, found]
    simp only [Option.bind_eq_bind, Option.bind_some, List.foldlM_cons, List.foldlM_nil, Option.pure_def, Option.bind_fun_some]
    cases own : idom p with
    | none =>
      refine ⟨new, by simp, ?_⟩
      have skip : ∀ q ∈ looked ++ [p], (idom q).isSome → q ∈ looked := by
        intro q member inTree
        rcases List.mem_append.mp member with early | last
        · exact early
        · rw [List.mem_singleton.mp last, own] at inTree
          cases inTree
      cases new with
      | none =>
        intro q member
        rcases List.mem_append.mp member with early | last
        · exact gathered q early
        · rw [List.mem_singleton.mp last]
          exact own
      | some cur =>
        obtain ⟨inTree, common, lowest⟩ := gathered
        refine ⟨inTree, fun q member placed => common q (skip q member placed) placed, ?_⟩
        intro z all
        exact lowest z fun q member => all q (List.mem_append_left _ member)
    | some parent =>
      have inTree : (idom p).isSome := by
        rw [own]
        rfl
      rw [numbers p (tree.reached p inTree)]
      simp only [Option.isNone_some, Bool.or_self, Bool.false_eq_true, if_false]
      cases new with
      | none =>
        refine ⟨some p, rfl, inTree, ?_, fun z all => all p (by simp) inTree⟩
        intro q member placed
        rcases List.mem_append.mp member with early | last
        · rw [gathered q early] at placed
          cases placed
        · rw [List.mem_singleton.mp last]
          exact .refl idom p
      | some cur =>
        obtain ⟨inTree', common, lowest⟩ := gathered
        obtain ⟨meet, met, aboveP, aboveCur, least⟩ := intersect_spec numbered tree numbers inTree inTree'
          (Nat.le_trans (Nat.le_trans (Nat.sub_le _ _) (Nat.sub_le _ _)) enough)
        refine ⟨some meet, by simp [met], (tree.rises aboveP inTree).1, ?_, ?_⟩
        · intro q member placed
          rcases List.mem_append.mp member with early | last
          · exact (common q early placed).trans aboveCur
          · rw [List.mem_singleton.mp last]
            exact aboveP
        · intro z all
          apply least z (all p (by simp) inTree)
          exact lowest z fun q member => all q (List.mem_append_left _ member)

end

section

variable {cfg : Cfg} {num : BlockId → Nat} {search : Postorder} {preds : Adjacency}

/-- The numbers of the search, and rows that hold the predecessors. -/
structure Prepared (cfg : Cfg) (num : BlockId → Nat) (search : Postorder) (preds : Adjacency) : Prop where
  bounds : cfg.InBounds
  ordered : search.Ordered cfg num
  rows : ∀ block < cfg.blockCount, preds.of block = cfg.preds block

variable (prepared : Prepared cfg num search preds)

include prepared

theorem Prepared.mem_preds {block p : BlockId} (inside : block < cfg.blockCount) (live : cfg.Live p) :
    p ∈ preds.of block ↔ cfg.Edge p block := by
  rw [prepared.rows block inside, Cfg.preds]
  simp only [List.mem_flatMap, List.mem_range, List.mem_map, List.mem_filter, decide_eq_true_eq]
  constructor
  · rintro ⟨source, _, _, ⟨edge, rfl⟩, rfl⟩
    exact edge
  · intro edge
    exact ⟨p, live.inBounds prepared.bounds, block, ⟨edge, rfl⟩, rfl⟩

/-- A visit sets the lowest common ancestor of the predecessors in the tree. -/
theorem Prepared.visit {idom : BlockId → Option BlockId} {u : BlockId} (changed : Bool)
    (sweep : Sweep cfg.Edge cfg.entry num (num u + 1) idom) (live : cfg.Live u) (other : u ≠ cfg.entry) :
    ∃ w, Meets cfg.Edge idom u w ∧ DominatorTree.visit cfg.entry search.postNum preds cfg.blockCount (idom, changed) u =
      some (if idom u ≠ some w then (Function.update idom u (some w), true) else (idom, changed)) := by
  have inside := live.inBounds prepared.bounds
  have enough : 2 * num cfg.entry + 2 ≤ 2 * cfg.blockCount := by
    have := prepared.ordered.few cfg.entry .start
    omega
  obtain ⟨new, found, gathered⟩ := newIdom_gathered prepared.ordered.numbered sweep.toTree prepared.ordered.numbers enough (preds.of u)
  obtain ⟨q, reached, taken, more⟩ := prepared.ordered.numbered.forward u live other
  have inTree := sweep.placed q reached more
  have member := (prepared.mem_preds inside reached).mpr taken
  rw [DominatorTree.visit, if_neg other, found]
  cases new with
  | none =>
    rw [gathered q member] at inTree
    cases inTree
  | some w =>
    obtain ⟨_, common, lowest⟩ := gathered
    refine ⟨w, ⟨?_, ?_⟩, rfl⟩
    · intro p edge placed
      exact common p ((prepared.mem_preds inside (sweep.reached p placed)).mpr edge) placed
    · intro a all
      apply lowest a
      intro p member placed
      exact all p ((prepared.mem_preds inside (sweep.reached p placed)).mp member) placed

/-- A sweep leaves everything as it is, each parent the one a visit gives, or raises some parent. -/
theorem Prepared.sweep (rest : List BlockId) (changed : Bool) {idom : BlockId → Option BlockId}
    (sweep : Sweep cfg.Edge cfg.entry num rest.length idom) (low : rest.length ≤ num cfg.entry)
    (live : ∀ block ∈ rest, cfg.Live block)
    (position : ∀ before block after, rest = before ++ block :: after → num block = after.length) :
    ∃ final, rest.foldlM (DominatorTree.visit cfg.entry search.postNum preds cfg.blockCount) (idom, changed) = some final ∧
      Sweep cfg.Edge cfg.entry num 0 final.1 ∧
      (final = (idom, changed) ∧ (∀ u ∈ rest, ∀ w, idom u = some w → Meets cfg.Edge idom u w) ∨
        final.2 = true ∧ Sweep.height num cfg.blockCount idom < Sweep.height num cfg.blockCount final.1) := by
  induction rest generalizing idom changed with
  | nil => exact ⟨(idom, changed), rfl, sweep, .inl ⟨rfl, nofun⟩⟩
  | cons u rest ih =>
    have number : num u = rest.length := position [] u rest rfl
    have other : u ≠ cfg.entry := by
      rintro rfl
      rw [List.length_cons] at low
      omega
    have live' := live u (.head _)
    rw [List.length_cons, ← number] at sweep
    obtain ⟨w, meets, step⟩ := prepared.visit changed sweep live' other
    have visit : Sweep.Visit cfg.Edge cfg.entry num idom u w := ⟨sweep, live', other, meets⟩
    have after := visit.after prepared.ordered.numbered
    rw [number] at after
    have next := fun changed' => ih changed' after (Nat.le_trans (Nat.le_succ _) low) (fun block member => live block (.tail _ member))
      fun before block behind same => position (u :: before) block behind (by rw [same]; rfl)
    rw [List.foldlM_cons, step, Option.bind_eq_bind, Option.bind_some]
    by_cases same : idom u = some w
    · rw [if_neg (not_not.mpr same)]
      have unchanged : Function.update idom u (some w) = idom := by
        rw [← same]
        exact Function.update_eq_self u idom
      rw [unchanged] at next
      obtain ⟨final, found, ended, outcome⟩ := next changed
      refine ⟨final, found, ended, outcome.imp_left ?_⟩
      rintro ⟨still, each⟩
      refine ⟨still, ?_⟩
      intro block member d own
      rcases List.mem_cons.mp member with rfl | member
      · rw [same] at own
        cases own
        exact meets
      · exact each block member d own
    · rw [if_pos same]
      obtain ⟨final, found, ended, outcome⟩ := next true
      have higher := visit.height_lt prepared.ordered.numbered (live'.inBounds prepared.bounds) same
      refine ⟨final, found, ended, .inr ?_⟩
      rcases outcome with ⟨rfl, _⟩ | ⟨raised, more⟩
      · exact ⟨rfl, higher⟩
      · exact ⟨raised, Nat.lt_trans higher more⟩

theorem Prepared.rpo : ∃ rest, search.postOrder.reverse = cfg.entry :: rest ∧ num cfg.entry = rest.length := by
  have member : cfg.entry ∈ search.postOrder.reverse := by
    rw [List.mem_reverse, prepared.ordered.order]
    exact .start
  obtain ⟨before, after, same⟩ := List.append_of_mem member
  have last := prepared.ordered.position before cfg.entry after same
  cases before with
  | nil => exact ⟨after, same, last⟩
  | cons first before =>
    have number := prepared.ordered.position [] first (before ++ cfg.entry :: after) same
    have live : cfg.Live first := by
      rw [← prepared.ordered.order, ← List.mem_reverse, same]
      exact .head _
    have := prepared.ordered.numbered.highest first live
    rw [number, last, List.length_append, List.length_cons] at this
    omega

theorem Prepared.sweeps (fuel : Nat) {idom : BlockId → Option BlockId}
    (sweep : Sweep cfg.Edge cfg.entry num (num cfg.entry) idom)
    (enough : cfg.blockCount * cfg.blockCount < Sweep.height num cfg.blockCount idom + fuel) :
    ∃ final, DominatorTree.sweeps cfg.entry search.postNum preds cfg.blockCount search.postOrder.reverse fuel idom = some final ∧
      Sweep cfg.Edge cfg.entry num 0 final ∧ ∀ x y, final x = some y → x ≠ cfg.entry → Meets cfg.Edge final x y := by
  induction fuel generalizing idom with
  | zero =>
    exfalso
    apply Nat.not_le_of_lt enough
    apply Sweep.height_le
    intro x y own
    apply prepared.ordered.few
    have inTree : (idom x).isSome := by
      rw [own]
      rfl
    exact sweep.reached y (sweep.rises (.up own (.refl idom y)) inTree).1
  | succ fuel ih =>
    obtain ⟨rest, same, number⟩ := prepared.rpo
    have live : ∀ block ∈ rest, cfg.Live block := by
      intro block member
      rw [← prepared.ordered.order, ← List.mem_reverse, same]
      exact .tail _ member
    have position : ∀ before block after, rest = before ++ block :: after → num block = after.length := by
      intro before block after split
      exact prepared.ordered.position (cfg.entry :: before) block after (by rw [same, split]; rfl)
    rw [number] at sweep
    obtain ⟨final, found, ended, outcome⟩ := prepared.sweep rest false sweep (Nat.le_of_eq number.symm) live position
    rw [DominatorTree.sweeps, same, List.foldlM_cons, DominatorTree.visit, if_pos rfl]
    simp only [Option.bind_eq_bind, Option.bind_some, found]
    rcases outcome with ⟨rfl, each⟩ | ⟨raised, more⟩
    · refine ⟨idom, rfl, ended, ?_⟩
      intro x y own other
      refine each x ?_ y own
      have inTree : (idom x).isSome := by
        rw [own]
        rfl
      have reached : cfg.Live x := ended.reached x inTree
      rw [← prepared.ordered.order, ← List.mem_reverse, same] at reached
      exact (List.mem_cons.mp reached).resolve_left other
    · rw [raised, if_pos rfl, ← same]
      exact ih (ended.again prepared.ordered.numbered _) (by omega)

end

section

variable {edge : BlockId → BlockId → Prop} {entry : BlockId} {num : BlockId → Nat} {idom : BlockId → Option BlockId} {n : Nat}

theorem mem_childEdges {parent child : BlockId} :
    (parent, child) ∈ childEdges idom n ↔ child < n ∧ idom child = some parent ∧ parent ≠ child := by
  rw [childEdges, List.mem_filterMap]
  constructor
  · rintro ⟨index, member, same⟩
    cases own : idom index with
    | none =>
      rw [own] at same
      cases same
    | some up =>
      simp only [own, Option.ite_none_right_eq_some, Option.some_inj, Prod.mk.injEq] at same
      obtain ⟨different, rfl, rfl⟩ := same
      exact ⟨List.mem_range.mp member, own, different⟩
  · rintro ⟨inside, own, different⟩
    refine ⟨child, List.mem_range.mpr inside, ?_⟩
    simp only [own, if_pos different]

variable (small : ∀ child parent, idom child = some parent → parent < n)

include small

theorem children_of (node : BlockId) : (children idom n).of node = if node < n then Csr.row (childEdges idom n) node else [] := by
  have inside : ∀ edge ∈ childEdges idom n, edge.1 < n := by
    rintro ⟨parent, child⟩ member
    exact small child parent (mem_childEdges.mp member).2.1
  split
  next named =>
    apply Adjacency.filed_of inside (Csr.prefixSums_counts _ n) ?_ named
    rw [Csr.prefixSums_counts _ n n (Nat.le_refl n), Csr.bound]
    exact Nat.le_of_eq (List.countP_eq_length.mpr fun edge member => decide_eq_true (inside edge member)).symm
  next outside =>
    have none' := Csr.prefixSums_outside inside (Nat.le_of_not_lt outside)
    simp only [children, Adjacency.of, Adjacency.filed, none', Nat.zero_sub, List.take_zero]

/-- The rows of the children hold the blocks with a given parent, once each. -/
theorem mem_children {node child : BlockId} :
    child ∈ (children idom n).of node ↔ child < n ∧ idom child = some node ∧ node ≠ child := by
  rw [children_of small]
  split
  next => simp [Csr.row, mem_childEdges]
  next outside =>
    simp only [List.not_mem_nil, false_iff]
    rintro ⟨_, own, _⟩
    exact outside (small child node own)

omit small in
theorem child_edge {index : BlockId} {edge : BlockId × BlockId} (found : (match idom index with
    | some parent => if parent ≠ index then some (parent, index) else none
    | none => none) = some edge) : edge.2 = index := by
  cases own : idom index with
  | none =>
    rw [own] at found
    cases found
  | some up =>
    simp only [own, Option.ite_none_right_eq_some, Option.some_inj] at found
    rw [← found.2]

theorem sorted_children (node : BlockId) : ((children idom n).of node).Pairwise (· < ·) := by
  rw [children_of small]
  split
  next =>
    rw [Csr.row, List.pairwise_map]
    apply List.Pairwise.filter
    rw [childEdges, List.pairwise_filterMap]
    apply List.pairwise_lt_range.imp
    intro one other before first same second same'
    rw [child_edge same, child_edge same']
    exact before
  next => exact .nil

omit small in
theorem branching (tree : Tree edge entry num idom) (inside : entry < n)
    (small : ∀ block, Reachable edge entry block → block < n) : Preorder.Branching (children idom n).of n entry := by
  have small' : ∀ child parent, idom child = some parent → parent < n := by
    intro child parent own
    apply small
    have inTree : (idom child).isSome := by
      rw [own]
      rfl
    exact tree.reached parent (tree.rises (.up own (.refl idom parent)) inTree).1
  refine ⟨inside, ?_, fun node => (sorted_children small' node).imp Nat.ne_of_lt, ?_, ?_⟩
  · intro node _ child member
    exact ((mem_children small').mp member).1
  · intro one other child member member'
    obtain ⟨_, own, _⟩ := (mem_children small').mp member
    obtain ⟨_, own', _⟩ := (mem_children small').mp member'
    exact Option.some_inj.mp (own.symm.trans own')
  · intro node member
    obtain ⟨_, own, different⟩ := (mem_children small').mp member
    rw [tree.root] at own
    exact different (Option.some_inj.mp own).symm

omit small in
theorem below_iff (tree : Tree edge entry num idom) (small : ∀ block, Reachable edge entry block → block < n) {x y : BlockId} :
    Preorder.Below (children idom n).of y x ↔ Anc idom x y := by
  have inTree : ∀ {child parent}, idom child = some parent → (idom child).isSome := by
    intro child parent own
    rw [own]
    rfl
  have small' : ∀ child parent, idom child = some parent → parent < n := by
    intro child parent own
    exact small parent (tree.reached parent (tree.rises (.up own (.refl idom parent)) (inTree own)).1)
  constructor
  · rintro ⟨done, path⟩
    induction path with
    | start => exact .refl idom y
    | step _ taken ih => exact .up ((mem_children small').mp taken).2.1 ih
  · intro above
    induction above using Relation.ReflTransGen.head_induction_on with
    | refl => exact .start
    | @head child parent own _ ih =>
      by_cases same : parent = child
      · rwa [← same]
      · exact ih.step ((mem_children small').mpr ⟨small child (tree.reached child (inTree own)), own, same⟩)

end

structure Answers (cfg : Cfg) (dom : DominatorTree) : Prop where
  reachable : ∀ b, dom.isReachable b ↔ cfg.Reached b
  dominates : ∀ a b, cfg.Reached b → (dom.dominates a b ↔ cfg.Dominates a b)
  alone : ∀ a b, ¬cfg.Reached b → (dom.dominates a b ↔ a = b)
  idom : ∀ b, cfg.Reached b → b ≠ cfg.entry → ∃ d, dom.idomOf b = some d ∧ cfg.ImmediatelyDominates d b
  none' : ∀ b, ¬cfg.Reached b ∨ b = cfg.entry → dom.idomOf b = none

/-- The sweeps' tree and the intervals of its walk answer for the graph. -/
theorem answers_of_settled {cfg : Cfg} (bounds : cfg.InBounds) {num : BlockId → Nat} {search : Postorder} (ordered : search.Ordered cfg num)
    {idom : BlockId → Option BlockId} (sweep : Sweep cfg.Edge cfg.entry num 0 idom)
    (still : ∀ x y, idom x = some y → x ≠ cfg.entry → Meets cfg.Edge idom x y) :
    Answers cfg ⟨idom, search.postNum, (preorderIntervals idom cfg.entry cfg.blockCount).1,
      (preorderIntervals idom cfg.entry cfg.blockCount).2⟩ := by
  have small : ∀ block, cfg.Live block → block < cfg.blockCount := fun block live => live.inBounds bounds
  obtain ⟨numbered, intervals⟩ := Preorder.intervals (branching sweep.toTree bounds.entry small) rfl
  simp only [below_iff sweep.toTree small] at numbered intervals
  have inTree : ∀ b, cfg.Live b ↔ (idom b).isSome := fun b =>
    ⟨fun live => sweep.placed b live (Nat.zero_le _), sweep.reached b⟩
  have walked : ∀ b, ((preorderIntervals idom cfg.entry cfg.blockCount).1 b).isSome ↔ cfg.Live b := by
    intro b
    rw [preorderIntervals, if_pos bounds.entry, numbered, inTree]
    constructor
    · intro above
      rcases above.cases with rfl | ⟨parent, own, _⟩
      · rw [sweep.root]
        rfl
      · rw [own]
        rfl
    · exact sweep.below_root ordered.numbered
  have reached : ∀ {b}, cfg.Reached b ↔ cfg.Live b := ⟨And.right, fun live => ⟨bounds.entry, live⟩⟩
  have unnumbered : ∀ {b}, ¬cfg.Live b → (preorderIntervals idom cfg.entry cfg.blockCount).1 b = none := by
    intro b dead
    rw [← walked, Option.not_isSome_iff_eq_none] at dead
    exact dead
  refine ⟨?_, ?_, ?_, ?_, ?_⟩
  · intro b
    rw [reached, isReachable]
    by_cases live : cfg.Live b
    · simp [ordered.numbers b live, live]
    · simp [ordered.others b live, live]
  · intro a b reached'
    have live := reached.mp reached'
    by_cases above : cfg.Live a
    · obtain ⟨preA, foundA⟩ := Option.isSome_iff_exists.mp ((walked a).mpr above)
      obtain ⟨preB, foundB⟩ := Option.isSome_iff_exists.mp ((walked b).mpr live)
      simp only [DominatorTree.dominates, foundA, foundB, Bool.and_eq_true, decide_eq_true_eq]
      simp only [preorderIntervals, if_pos bounds.entry] at foundA foundB ⊢
      exact (intervals a b preA preB foundA foundB).trans (sweep.settled still live)
    · simp only [DominatorTree.dominates, unnumbered above, decide_eq_true_eq]
      constructor
      · rintro rfl
        exact absurd live above
      · intro dominates
        exact absurd (Dominates.reachable dominates live) above
  · intro a b unreached
    rw [reached] at unreached
    cases pre : (preorderIntervals idom cfg.entry cfg.blockCount).1 a with
    | none => simp only [DominatorTree.dominates, pre, decide_eq_true_eq]
    | some preA => simp only [DominatorTree.dominates, pre, unnumbered unreached, decide_eq_true_eq]
  · intro b reached' other
    obtain ⟨d, own, different, dominates, closest⟩ := sweep.settled_parent still (reached.mp reached') other
    refine ⟨d, ?_, different, dominates, fun e apart dominates' => closest e dominates' apart⟩
    simp only [idomOf, own, if_neg different]
  · rintro b (unreached | rfl)
    · rw [reached, inTree, Option.not_isSome_iff_eq_none] at unreached
      simp only [idomOf, unreached]
    · simp only [idomOf, sweep.root, if_true]

/-- Without an entry block nothing is searched and nothing is in the tree. -/
theorem compute_empty {cfg : Cfg} (outside : ¬cfg.entry < cfg.blockCount) : ∃ dom, compute cfg = some dom ∧ Answers cfg dom := by
  have nothing : ∀ block, ¬cfg.Reached block := fun block reached => outside reached.1
  refine ⟨⟨fun _ => none, fun _ => none, fun _ => none, fun _ => 0⟩, ?_, ?_⟩
  · simp [compute, Postorder.run, outside, sweeps, preorderIntervals]
  · refine ⟨?_, ?_, ?_, ?_, fun _ _ => rfl⟩
    · intro b
      simp [isReachable, nothing]
    · exact fun a b reached => absurd reached (nothing b)
    · intro a b _
      simp [DominatorTree.dominates]
    · exact fun b reached => absurd reached (nothing b)

theorem compute_answers {cfg : Cfg} (targets : ∀ block < cfg.blockCount, ∀ target ∈ cfg.succs block, target < cfg.blockCount) :
    ∃ dom, compute cfg = some dom ∧ Answers cfg dom := by
  by_cases inside : cfg.entry < cfg.blockCount
  · have bounds : cfg.InBounds := ⟨inside, targets⟩
    have tables : ∀ block < cfg.blockCount, (Adjacency.successors cfg cfg.blockCount).of block = cfg.succs block :=
      fun block => Adjacency.successors_of
    obtain ⟨num, ordered⟩ := Postorder.run_ordered bounds tables
    have prepared : Prepared cfg num _ ((Adjacency.successors cfg cfg.blockCount).reversed cfg.blockCount) :=
      ⟨bounds, ordered, fun block => Adjacency.reversed_of targets rfl⟩
    obtain ⟨idom, found, sweep, still⟩ := prepared.sweeps (cfg.blockCount * cfg.blockCount + 1) (Sweep.start ordered.numbered) (by omega)
    refine ⟨_, ?_, answers_of_settled bounds ordered sweep still⟩
    simp only [compute, if_pos inside, found, Option.bind_eq_bind, Option.bind_some]
  · exact compute_empty inside

/-- Whatever its shape, a graph has its tree: it ends, dominance is what the paths say, the
immediate dominator is the closest strict one, and no other, and what is not reached is
dominated by itself only. -/
theorem compute_correct (cfg : Cfg) (targets : ∀ block < cfg.blockCount, ∀ target ∈ cfg.succs block, target < cfg.blockCount) :
    ∃ dom, compute cfg = some dom ∧
      (∀ a b, cfg.Reached a → cfg.Reached b → (dom.dominates a b ↔ cfg.Dominates a b)) ∧
      (∀ b, cfg.Reached b → b ≠ cfg.entry → ∃ d, dom.idomOf b = some d ∧ ∀ e, cfg.ImmediatelyDominates e b ↔ e = d) ∧
      ∀ a b, ¬cfg.Reached b → (dom.dominates a b ↔ a = b) := by
  obtain ⟨dom, found, answers⟩ := compute_answers targets
  refine ⟨dom, found, fun a b _ => answers.dominates a b, ?_, answers.alone⟩
  intro b reached other
  obtain ⟨d, own, immediate⟩ := answers.idom b reached other
  refine ⟨d, own, fun e => ⟨fun also => Cfg.ImmediatelyDominates.unique reached.2 also immediate, ?_⟩⟩
  rintro rfl
  exact immediate

/-- A cycle with two entries, a block that jumps to itself, and one that nothing reaches. -/
def crossed : Cfg := Cfg.ofTables [⟨.boolConst true, .bool⟩]
  [([], [0], .branch 0 1 [] 2 []), ([], [], .goto 2 []), ([], [], .branch 0 1 [] 3 []), ([], [], .goto 3 []), ([], [], .goto 1 [])]

theorem crossed_tree : (∃ dom, compute crossed = some dom ∧
      (∀ a b, crossed.Reached a → crossed.Reached b → (dom.dominates a b ↔ crossed.Dominates a b)) ∧
      (∀ b, crossed.Reached b → b ≠ crossed.entry → ∃ d, dom.idomOf b = some d ∧ ∀ e, crossed.ImmediatelyDominates e b ↔ e = d) ∧
      ∀ a b, ¬crossed.Reached b → (dom.dominates a b ↔ a = b)) ∧
    (compute crossed).map (fun dom => (List.range 5).map dom.idomOf) = some [none, some 0, some 0, some 2, none] :=
  ⟨compute_correct crossed (by decide), by decide⟩

end Rue.DominatorTree
