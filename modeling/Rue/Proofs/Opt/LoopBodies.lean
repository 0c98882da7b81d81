import Rue.Opt.Loops

/-! The scan turns a graph down exactly when it has a cycle with two entries, and
the back edges it groups are those of the dominance relation. -/

namespace Rue.Loops

open Lib Lib.DepthFirst

variable {cfg : Cfg} {dom : DominatorTree}

/-- The scan as a depth-first search, with what it made of the edges that go back. -/
structure Matches (dom : DominatorTree) (scan : Scan) (state : DepthFirst.State) : Prop where
  visited : ∀ block, scan.visited block = decide (block ∈ state.visited)
  onStack : ∀ block, scan.onStack block = decide (block ∈ state.onStack)
  irreducible : scan.irreducible = state.retreats.any fun edge => !dom.dominates edge.2 edge.1
  stack : scan.stack = state.stack

theorem update_true (mark : BlockId → Bool) (marked : List BlockId) (same : ∀ block, mark block = decide (block ∈ marked))
    (node block : BlockId) : Function.update mark node true block = decide (block ∈ node :: marked) := by
  by_cases here : block = node
  · simp [here]
  · simp [here, same]

theorem start_matches : Matches dom (Scan.start cfg) (DepthFirst.start cfg.entry) := by
  have one : ∀ block, Function.update (fun _ => false) cfg.entry true block = decide (block ∈ [cfg.entry]) :=
    update_true _ [] (fun _ => rfl) cfg.entry
  exact ⟨one, one, rfl, rfl⟩

theorem turn_matches {scan : Scan} {state : DepthFirst.State} (matches' : Matches dom scan state)
    (inv : Inv cfg.succs cfg.blockCount cfg.entry state) :
    Matches dom (Scan.turn cfg dom scan) (DepthFirst.turn cfg.succs state) := by
  rw [Scan.turn, DepthFirst.turn, matches'.stack]
  cases top : state.stack with
  | nil => exact matches'
  | cons frame below =>
    obtain ⟨block, idx⟩ := frame
    have distinct := (List.nodup_append.mp inv.distinct).1
    rw [State.onStack, top, List.map_cons, List.nodup_cons] at distinct
    have shape : ∀ other, other ∈ state.onStack ↔ other = block ∨ other ∈ below.map Prod.fst := by
      intro other
      rw [State.onStack, top, List.map_cons, List.mem_cons]
    simp only
    cases found : (cfg.succs block)[idx]? with
    | none =>
      refine ⟨matches'.visited, ?_, matches'.irreducible, rfl⟩
      intro other
      by_cases here : other = block
      · simp only [here, Function.update_self, State.onStack]
        exact (decide_eq_false distinct.1).symm
      · refine (Function.update_of_ne here _ _).trans ?_
        rw [matches'.onStack, decide_eq_decide, shape, or_iff_right here]
        rfl
    | some s =>
      have upper : ∀ other, decide (other ∈ state.onStack) = decide (other ∈ block :: below.map Prod.fst) := by
        intro other
        rw [decide_eq_decide, shape, List.mem_cons]
      simp only [matches'.onStack s, matches'.visited s, decide_eq_true_eq, Bool.not_eq_true', decide_eq_false_iff_not]
      split
      next =>
        refine ⟨matches'.visited, fun other => (matches'.onStack other).trans (upper other), ?_, rfl⟩
        rw [matches'.irreducible, List.any_cons, Bool.or_comm]
      next =>
        by_cases known : s ∈ state.visited
        · rw [if_neg (not_not.mpr known), if_pos known]
          exact ⟨matches'.visited, fun other => (matches'.onStack other).trans (upper other), matches'.irreducible, rfl⟩
        · rw [if_pos known, if_neg known]
          refine ⟨update_true _ _ matches'.visited s, ?_, matches'.irreducible, rfl⟩
          exact update_true _ _ (fun other => (matches'.onStack other).trans (upper other)) s

theorem scan_matches (bounds : cfg.InBounds) :
    ∃ state, Searched cfg.succs cfg.entry state ∧ Matches dom (scan cfg dom) state := by
  refine ⟨_, searched bounds.entry bounds.targets, ?_⟩
  rw [scan, if_pos bounds.entry]
  generalize turns cfg.succs cfg.blockCount = count
  induction count with
  | zero => exact start_matches
  | succ count ih =>
    rw [Function.iterate_succ_apply', Function.iterate_succ_apply']
    exact turn_matches ih (Inv.iterate bounds.entry bounds.targets count).1

theorem scan_visited (bounds : cfg.InBounds) (block : BlockId) : (scan cfg dom).visited block ↔ cfg.Live block := by
  obtain ⟨state, searched, matches'⟩ := @scan_matches cfg dom bounds
  rw [matches'.visited, decide_eq_true_eq]
  exact searched.visited block

/-- Not the order of the successors, only the cycles decide. -/
theorem scan_irreducible (bounds : cfg.InBounds) (tree : dom.IsOf cfg) :
    (scan cfg dom).irreducible ↔ Tangled cfg.Edge cfg.entry := by
  obtain ⟨state, searched, matches'⟩ := @scan_matches cfg dom bounds
  have live : ∀ edge ∈ state.retreats, cfg.Live edge.1 ∧ cfg.Live edge.2 := by
    intro edge member
    obtain ⟨_, done, between, early, late, _⟩ := searched.backward edge member
    exact ⟨⟨_, early.append late⟩, ⟨_, early⟩⟩
  rw [matches'.irreducible, List.any_eq_true]
  constructor
  · rintro ⟨edge, member, bypassed⟩
    obtain ⟨source, target⟩ := live edge member
    refine tangled_of_retreats (searched.backward edge member) ?_
    intro dominates
    rw [(tree _ _ target source).mpr dominates] at bypassed
    cases bypassed
  · intro tangled
    by_contra clean
    simp only [not_exists, not_and, Bool.not_eq_true', Bool.not_eq_false] at clean
    have falls : Falls cfg.Edge cfg.entry (rank state) := by
      intro source target reached edge
      refine (searched.falls reached edge).imp_right ?_
      intro back
      obtain ⟨here, there⟩ := live _ back
      exact (tree target source there here).mp (clean _ back)
    exact falls.not_tangled tangled

theorem mem_backEdges (bounds : cfg.InBounds) (tree : dom.IsOf cfg) {visited : BlockId → Bool}
    (seen : ∀ block, visited block ↔ cfg.Live block) {u s : BlockId} :
    (u, s) ∈ backEdges cfg dom visited ↔ BackEdge cfg.Edge cfg.entry u s := by
  simp only [backEdges, List.mem_flatMap, List.mem_filter, List.mem_range, List.mem_map, Prod.mk.injEq]
  constructor
  · rintro ⟨block, ⟨inside, marked⟩, target, ⟨edge, dominates⟩, rfl, rfl⟩
    have live := (seen block).mp marked
    exact ⟨live, edge, (tree target block (live.step edge) live).mp dominates⟩
  · rintro ⟨live, edge, dominates⟩
    exact ⟨u, ⟨Cfg.Live.inBounds bounds live, (seen u).mpr live⟩, s, ⟨edge, (tree s u (live.step edge) live).mpr dominates⟩, rfl, rfl⟩

theorem backEdges_sorted (visited : BlockId → Bool) : (backEdges cfg dom visited).Pairwise fun one other => one.1 ≤ other.1 := by
  rw [backEdges, List.pairwise_flatMap]
  constructor
  · intro u _
    rw [List.pairwise_map]
    exact List.pairwise_of_forall fun _ _ => Nat.le_refl u
  · refine (List.pairwise_lt_range.filter _).imp ?_
    intro u v before one here other there
    obtain ⟨_, _, rfl⟩ := List.mem_map.mp here
    obtain ⟨_, _, rfl⟩ := List.mem_map.mp there
    exact Nat.le_of_lt before

/-- Each header once, with the sources of its edges in ascending order. -/
structure Grouped (edges : List (BlockId × BlockId)) (groups : List (BlockId × List BlockId)) : Prop where
  distinct : (groups.map Prod.fst).Nodup
  complete : ∀ edge ∈ edges, edge.2 ∈ groups.map Prod.fst
  latches : ∀ group ∈ groups, ∀ u, u ∈ group.2 ↔ (u, group.1) ∈ edges
  some' : ∀ group ∈ groups, group.2 ≠ []
  ascending : ∀ group ∈ groups, group.2.Pairwise (· < ·)

theorem Grouped.mem {edges : List (BlockId × BlockId)} {groups : List (BlockId × List BlockId)} (grouped : Grouped edges groups)
    {header : BlockId} : header ∈ groups.map Prod.fst ↔ ∃ u, (u, header) ∈ edges := by
  constructor
  · intro member
    obtain ⟨group, inside, rfl⟩ := List.mem_map.mp member
    obtain ⟨u, rest, same⟩ := List.exists_cons_of_ne_nil (grouped.some' group inside)
    exact ⟨u, (grouped.latches group inside u).mp (by rw [same]; exact .head _)⟩
  · rintro ⟨u, edge⟩
    exact grouped.complete _ edge

theorem Grouped.add {edges : List (BlockId × BlockId)} {groups : List (BlockId × List BlockId)} (grouped : Grouped edges groups)
    {edge : BlockId × BlockId} (last : ∀ earlier ∈ edges, earlier.1 ≤ edge.1) : Grouped (edges ++ [edge]) (addLatch groups edge) := by
  obtain ⟨u, s⟩ := edge
  rw [addLatch]
  split
  next slot found =>
    obtain ⟨inside, here, _⟩ := List.findIdx?_eq_some_iff_getElem.mp found
    have headed : groups[slot].1 = s := of_decide_eq_true here
    have names : (groups.modify slot fun group =>
        (group.1, if group.2.getLast? = some u then group.2 else group.2 ++ [u])).map Prod.fst = groups.map Prod.fst := by
      apply List.ext_getElem
      · simp
      · intro i _ _
        simp only [List.getElem_map, List.getElem_modify]
        split <;> rfl
    -- The slot gets the source, once; no other slot has this header.
    have shape : ∀ group ∈ groups.modify slot fun group =>
        (group.1, if group.2.getLast? = some u then group.2 else group.2 ++ [u]),
        group ∈ groups ∧ group.1 ≠ s ∨ group = (s, if groups[slot].2.getLast? = some u then groups[slot].2 else groups[slot].2 ++ [u]) := by
      intro group member
      obtain ⟨i, bound, same⟩ := List.mem_iff_getElem.mp member
      rw [List.length_modify] at bound
      rw [List.getElem_modify] at same
      split at same
      next here =>
        subst here
        rw [headed] at same
        exact .inr same.symm
      next other =>
        refine .inl ⟨same ▸ List.getElem_mem bound, ?_⟩
        intro again
        have bound' : i < (groups.map Prod.fst).length := by rwa [List.length_map]
        have inside' : slot < (groups.map Prod.fst).length := by rwa [List.length_map]
        apply other
        refine (@List.getElem_inj _ _ _ _ inside' bound' grouped.distinct).mp ?_
        rw [List.getElem_map, List.getElem_map, headed, same, again]
    have slotMember := List.getElem_mem inside
    have old := grouped.latches _ slotMember
    rw [headed] at old
    have ends : groups[slot].2.getLast? = some u → u ∈ groups[slot].2 := fun final => List.mem_of_getLast? final
    refine ⟨?_, ?_, ?_, ?_, ?_⟩
    · rw [names]
      exact grouped.distinct
    · intro edge member
      rw [names]
      rcases List.mem_append.mp member with earlier | new
      · exact grouped.complete edge earlier
      · rw [List.mem_singleton.mp new, ← headed]
        exact List.mem_map_of_mem slotMember
    · intro group member v
      rw [List.mem_append, List.mem_singleton]
      rcases shape group member with ⟨known, other⟩ | rfl
      · rw [grouped.latches group known]
        refine ⟨.inl, ?_⟩
        rintro (edge | same)
        · exact edge
        · cases same
          exact absurd rfl other
      · simp only [Prod.mk.injEq, and_true, ← old]
        split
        next final =>
          refine ⟨.inl, ?_⟩
          rintro (known | rfl)
          · exact known
          · exact ends final
        next => rw [List.mem_append, List.mem_singleton]
    · intro group member
      rcases shape group member with ⟨known, _⟩ | rfl
      · exact grouped.some' group known
      · simp only
        split
        next => exact grouped.some' _ slotMember
        next => simp
    · intro group member
      rcases shape group member with ⟨known, _⟩ | rfl
      · exact grouped.ascending group known
      · simp only
        have sorted := grouped.ascending _ slotMember
        split
        next => exact sorted
        next open' =>
          rw [List.pairwise_append]
          refine ⟨sorted, List.pairwise_singleton _ _, ?_⟩
          intro v known w new
          rw [List.mem_singleton.mp new]
          have bound := last _ ((old v).mp known)
          refine Nat.lt_of_le_of_ne bound ?_
          rintro rfl
          apply open'
          -- The last source is at most this one, which is among those before it.
          rcases List.eq_nil_or_concat groups[slot].2 with empty | ⟨init, final, same⟩
          · exact absurd empty (grouped.some' _ slotMember)
          · rw [List.concat_eq_append] at same
            have highest := last _ ((old final).mp (by rw [same]; simp))
            rw [same] at known sorted ⊢
            rw [List.getLast?_concat]
            rcases List.mem_append.mp known with before | here
            · have below := (List.pairwise_append.mp sorted).2.2 _ before final (List.mem_singleton_self _)
              exact absurd highest (Nat.not_le_of_lt below)
            · rw [List.mem_singleton.mp here]
  next none' =>
    have absent : s ∉ groups.map Prod.fst := by
      intro member
      obtain ⟨group, inside, rfl⟩ := List.mem_map.mp member
      have := List.findIdx?_eq_none_iff.mp none' group inside
      simp at this
    have unseen : ∀ v, (v, s) ∉ edges := fun v edge => absent (grouped.complete _ edge)
    have shape : ∀ group ∈ groups ++ [(s, [u])], group ∈ groups ∧ group.1 ≠ s ∨ group = (s, [u]) := by
      intro group member
      rcases List.mem_append.mp member with known | new
      · exact .inl ⟨known, fun same => absent (same ▸ List.mem_map_of_mem known)⟩
      · exact .inr (List.mem_singleton.mp new)
    refine ⟨?_, ?_, ?_, ?_, ?_⟩
    · rw [List.map_append, List.nodup_append]
      refine ⟨grouped.distinct, List.nodup_singleton _, ?_⟩
      intro header member other new same
      rw [List.map_singleton, List.mem_singleton] at new
      rw [same, new] at member
      exact absent member
    · intro edge member
      rw [List.map_append, List.mem_append]
      rcases List.mem_append.mp member with earlier | new
      · exact .inl (grouped.complete edge earlier)
      · rw [List.mem_singleton.mp new]
        exact .inr (.head _)
    · intro group member v
      rw [List.mem_append, List.mem_singleton]
      rcases shape group member with ⟨known, other⟩ | rfl
      · rw [grouped.latches group known]
        refine ⟨.inl, ?_⟩
        rintro (edge | same)
        · exact edge
        · cases same
          exact absurd rfl other
      · simp [unseen]
    · intro group member
      rcases shape group member with ⟨known, _⟩ | rfl
      · exact grouped.some' group known
      · exact List.cons_ne_nil _ _
    · intro group member
      rcases shape group member with ⟨known, _⟩ | rfl
      · exact grouped.ascending group known
      · exact List.pairwise_singleton _ _

theorem grouped_foldl {edges : List (BlockId × BlockId)} (sorted : edges.Pairwise fun one other => one.1 ≤ other.1) :
    Grouped edges (edges.foldl addLatch []) := by
  induction edges using List.reverseRecOn with
  | nil => exact ⟨List.nodup_nil, nofun, nofun, nofun, nofun⟩
  | append_singleton edges edge ih =>
    obtain ⟨earlier, _, before⟩ := List.pairwise_append.mp sorted
    rw [List.foldl_append]
    exact (ih earlier).add fun other member => before other member edge (List.mem_singleton_self _)

end Rue.Loops

/-! The bodies gathered backwards from the latches, and the edges that leave them. -/

namespace Rue.Loops

open Lib

variable {cfg : Cfg} {header : BlockId} {latches : List BlockId}

/-- On a way to a latch that does not come to the header. -/
def Comes (cfg : Cfg) (header : BlockId) (latches : List BlockId) (block : BlockId) : Prop :=
  ∃ latch ∈ latches, ∃ done, Path cfg.Edge block done latch ∧ header ∉ done ++ [latch]

/-- What has been gathered, and the blocks among it still to go back from. -/
structure Gathering (cfg : Cfg) (header : BlockId) (latches : List BlockId) (pops : Nat) (state : List BlockId × List BlockId) :
    Prop where
  headed : header ∈ state.1
  started : ∀ latch ∈ latches, latch ∈ state.1
  distinct : state.1.Nodup
  inside : ∀ block ∈ state.1, block < cfg.blockCount
  pending : ∀ block ∈ state.2, block ∈ state.1 ∧ block ≠ header
  closed : ∀ block ∈ state.1, block = header ∨ block ∈ state.2 ∨ ∀ pred ∈ cfg.preds block, pred ∈ state.1
  comes : ∀ block ∈ state.1, block = header ∨ Comes cfg header latches block
  count : state.2 = [] ∨ state.1.length = state.2.length + pops + 1

theorem gathering_start (within : header < cfg.blockCount) (inside : ∀ latch ∈ latches, latch < cfg.blockCount) :
    Gathering cfg header latches 0 (latches.foldl Search.push ([header], [])) := by
  obtain ⟨new, same, marked, only, distinct⟩ := @foldl_push latches [] [header] (List.nodup_singleton _)
  rw [same, List.append_nil]
  have apart : ∀ block ∈ new, block ≠ header := by
    rintro block member rfl
    exact (List.nodup_append.mp distinct).2.2 block member block (List.mem_singleton_self _) rfl
  refine ⟨List.mem_append_right _ (List.mem_singleton_self _), marked, distinct, ?_, ?_, ?_, ?_, ?_⟩
  · intro block member
    rcases List.mem_append.mp member with fresh | here
    · exact inside block (only block fresh)
    · rwa [List.mem_singleton.mp here]
  · exact fun block member => ⟨List.mem_append_left _ member, apart block member⟩
  · intro block member
    rcases List.mem_append.mp member with fresh | here
    · exact .inr (.inl fresh)
    · exact .inl (List.mem_singleton.mp here)
  · intro block member
    rcases List.mem_append.mp member with fresh | here
    · refine .inr ⟨block, only block fresh, [], .start, ?_⟩
      rw [List.nil_append, List.mem_singleton]
      exact (apart block fresh).symm
    · exact .inl (List.mem_singleton.mp here)
  · exact .inr (by simp)

theorem Gathering.step {pops : Nat} {state : List BlockId × List BlockId} (kept : Gathering cfg header latches pops state) :
    Gathering cfg header latches (pops + 1) (Search.pushStep cfg.preds state) := by
  obtain ⟨seen, work⟩ := state
  cases work with
  | nil => exact ⟨kept.headed, kept.started, kept.distinct, kept.inside, kept.pending, kept.closed, kept.comes, .inl rfl⟩
  | cons block work =>
    obtain ⟨known, notHeader⟩ := kept.pending block (.head _)
    obtain ⟨new, same, marked, only, distinct⟩ := @foldl_push (cfg.preds block) work seen kept.distinct
    have apart : ∀ pred ∈ new, pred ∉ seen := fun pred member again => (List.nodup_append.mp distinct).2.2 pred member pred again rfl
    simp only [Search.pushStep, same]
    refine ⟨List.mem_append_right _ kept.headed, fun latch member => List.mem_append_right _ (kept.started latch member), distinct,
      ?_, ?_, ?_, ?_, ?_⟩
    · intro other member
      rcases List.mem_append.mp member with fresh | old
      · exact (Cfg.mem_preds.mp (only other fresh)).1
      · exact kept.inside other old
    · intro other member
      rcases List.mem_append.mp member with fresh | old
      · refine ⟨List.mem_append_left _ fresh, ?_⟩
        rintro rfl
        exact apart other fresh kept.headed
      · obtain ⟨known, different⟩ := kept.pending other (.tail _ old)
        exact ⟨List.mem_append_right _ known, different⟩
    · intro other member
      rcases List.mem_append.mp member with fresh | old
      · exact .inr (.inl (List.mem_append_left _ fresh))
      · rcases kept.closed other old with here | waiting | closed
        · exact .inl here
        · rcases List.mem_cons.mp waiting with rfl | waiting
          · exact .inr (.inr marked)
          · exact .inr (.inl (List.mem_append_right _ waiting))
        · exact .inr (.inr fun pred edge => List.mem_append_right _ (closed pred edge))
    · intro other member
      rcases List.mem_append.mp member with fresh | old
      · obtain ⟨latch, listed, done, path, avoids⟩ := (kept.comes block known).resolve_left notHeader
        have edge := (Cfg.mem_preds.mp (only other fresh)).2
        refine .inr ⟨latch, listed, other :: done, (Path.start.step edge).append path, ?_⟩
        rw [List.cons_append, List.mem_cons, not_or]
        refine ⟨?_, avoids⟩
        rintro rfl
        exact apart header fresh kept.headed
      · exact kept.comes other old
    · right
      have count := kept.count.resolve_left (List.cons_ne_nil _ _)
      simp only [List.length_append, List.length_cons] at count ⊢
      omega

/-- The blocks gathered: the header, and those that come to a latch. -/
theorem gathered (bounds : cfg.InBounds) (within : header < cfg.blockCount) (inside : ∀ latch ∈ latches, latch < cfg.blockCount) :
    ∃ seen : List BlockId, gatherBody cfg header latches = seen.mergeSort (· ≤ ·) ∧ seen.Nodup ∧
      ∀ block, block ∈ seen ↔ block < cfg.blockCount ∧ (block = header ∨ Comes cfg header latches block) := by
  have kept : ∀ pops, Gathering cfg header latches pops
      ((Search.pushStep cfg.preds)^[pops] (latches.foldl Search.push ([header], []))) := by
    intro pops
    induction pops with
    | zero => exact gathering_start within inside
    | succ pops ih =>
      rw [Function.iterate_succ_apply']
      exact ih.step
  have final := kept cfg.blockCount
  rw [gatherBody]
  generalize (Search.pushStep cfg.preds)^[cfg.blockCount] (latches.foldl Search.push ([header], [])) = state at final ⊢
  have done : state.2 = [] := by
    rcases final.count with done | count
    · exact done
    · have few := length_le_of_inside final.distinct final.inside
      omega
  refine ⟨state.1, rfl, final.distinct, fun block => ⟨fun member => ⟨final.inside block member, final.comes block member⟩, ?_⟩⟩
  rintro ⟨bound, rfl | ⟨latch, listed, passed, path, avoids⟩⟩
  · exact final.headed
  · have back : ∀ {passed : List BlockId} {node : BlockId}, Path cfg.Edge block passed node → header ∉ passed ++ [node] →
        node ∈ state.1 → block ∈ state.1 := by
      intro passed node path
      induction path with
      | start => exact fun _ known => known
      | @step passed node next path edge ih =>
        intro avoids known
        have open' : next ≠ header := by
          rintro rfl
          exact avoids (List.mem_append_right _ (List.mem_singleton_self _))
        have nodeInside : node < cfg.blockCount :=
          path.invariant bound fun source target inside edge => bounds.targets source inside target edge
        apply ih fun again => avoids (List.mem_append_left _ again)
        rcases final.closed next known with here | waiting | closed
        · exact absurd here open'
        · rw [done] at waiting
          cases waiting
        · exact closed node (Cfg.mem_preds.mpr ⟨nodeInside, edge⟩)
    exact back path avoids (final.started latch listed)

/-- A loop is what its header and the back edges to it make of the graph. -/
structure Natural (cfg : Cfg) (lp : NaturalLoop) : Prop where
  latches : ∀ u, u ∈ lp.latches ↔ BackEdge cfg.Edge cfg.entry u lp.header
  latched : lp.latches ≠ []
  ascending : lp.latches.Pairwise (· < ·)
  body : ∀ block, block ∈ lp.body ↔ block < cfg.blockCount ∧ Body cfg.Edge cfg.entry lp.header block
  distinct : lp.body.Nodup
  exits : ∀ block target, (block, target) ∈ lp.exits ↔ block ∈ lp.body ∧ cfg.Edge block target ∧ target ∉ lp.body

theorem naturalLoop_natural (bounds : cfg.InBounds) {group : BlockId × List BlockId} (some' : group.2 ≠ [])
    (ascending : group.2.Pairwise (· < ·)) (edges : ∀ u, u ∈ group.2 ↔ BackEdge cfg.Edge cfg.entry u group.1) :
    Natural cfg (naturalLoop cfg group) := by
  obtain ⟨header, latches⟩ := group
  have sorted : latches.mergeSort (· ≤ ·) = latches := by
    apply List.mergeSort_of_pairwise
    exact ascending.imp fun before => decide_eq_true (Nat.le_of_lt before)
  have inside : ∀ latch ∈ latches, latch < cfg.blockCount := fun latch member =>
    Cfg.Live.inBounds bounds ((edges latch).mp member).reached
  obtain ⟨first, rest, same⟩ := List.exists_cons_of_ne_nil some'
  have back := (edges first).mp (by rw [same]; exact .head _)
  have within : header < cfg.blockCount := bounds.targets first (inside first (by rw [show latches = _ from same]; exact .head _))
    header back.taken
  obtain ⟨seen, made, distinct, members⟩ := gathered bounds within inside
  have comes : ∀ block, Comes cfg header latches block ↔
      ∃ latch done, BackEdge cfg.Edge cfg.entry latch header ∧ Path cfg.Edge block done latch ∧ header ∉ done ++ [latch] := by
    intro block
    constructor
    · rintro ⟨latch, listed, done, path, avoids⟩
      exact ⟨latch, done, (edges latch).mp listed, path, avoids⟩
    · rintro ⟨latch, done, back, path, avoids⟩
      exact ⟨latch, (edges latch).mpr back, done, path, avoids⟩
  have shape : naturalLoop cfg (header, latches) =
      { header, latches, body := seen.mergeSort (· ≤ ·), parent := none,
        exits := (seen.mergeSort (· ≤ ·)).flatMap fun b =>
          ((cfg.succs b).filter fun s => s ∉ seen.mergeSort (· ≤ ·)).map fun s => (b, s) } := by
    simp only [naturalLoop, sorted, made]
  rw [shape]
  refine ⟨edges, some', ascending, ?_, ?_, ?_⟩
  · intro block
    rw [List.mem_mergeSort, members, comes]
    rfl
  · exact (List.mergeSort_perm _ _).nodup_iff.mpr distinct
  · intro block target
    simp only [List.mem_flatMap, List.mem_map, List.mem_filter, decide_eq_true_eq, Prod.mk.injEq]
    constructor
    · rintro ⟨source, member, other, ⟨edge, leaves⟩, rfl, rfl⟩
      exact ⟨member, edge, leaves⟩
    · rintro ⟨member, edge, leaves⟩
      exact ⟨block, member, target, ⟨edge, leaves⟩, rfl, rfl⟩

end Rue.Loops
