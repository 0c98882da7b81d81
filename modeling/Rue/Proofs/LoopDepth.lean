import Mathlib
import Rue.Codegen.LinearScan
import Rue.Lib.SparseTable

/-! Range maxima of loop depths are the maxima of the instructions' depths, and an
instruction's depth counts the back edges around it. -/

namespace Rue.Proofs.LoopDepth
open Codegen Codegen.LoopInfo Lib.SparseTable

/-- How many runs start at or before the index. -/
def standing (runs : List (Nat × Nat)) (index : Nat) : Nat := (runs.takeWhile fun run => run.1 ≤ index).length

theorem standing_cons (run : Nat × Nat) (runs : List (Nat × Nat)) (index : Nat) :
    standing (run :: runs) index = if run.1 ≤ index then standing runs index + 1 else 0 := by
  by_cases before : run.1 ≤ index <;> simp [standing, before]

theorem standing_eq_zero {runs : List (Nat × Nat)} {index : Nat} (later : ∀ run ∈ runs, index < run.1) :
    standing runs index = 0 := by
  cases runs with
  | nil => rfl
  | cons run runs =>
    have after := later run (List.mem_cons_self ..)
    rw [standing_cons, if_neg (by omega)]

/-- One step further at most one more run has started. -/
theorem standing_succ {runs : List (Nat × Nat)} (ascending : runs.Pairwise fun first second => first.1 < second.1)
    (index : Nat) : standing runs (index + 1) = standing runs index ∨ standing runs (index + 1) = standing runs index + 1 := by
  induction runs with
  | nil => exact .inl rfl
  | cons run runs ih =>
    obtain ⟨first, rest⟩ := List.pairwise_cons.mp ascending
    simp only [standing_cons]
    by_cases before : run.1 ≤ index
    · rw [if_pos (by omega), if_pos before]
      rcases ih rest with same | more <;> omega
    · rw [if_neg before]
      by_cases now : run.1 ≤ index + 1
      · rw [if_pos now, standing_eq_zero fun other member => by have := first other member; omega]
        exact .inr rfl
      · rw [if_neg now]
        exact .inl rfl

theorem runs_starts {index : Nat} {previous : Option Nat} {depths : List Nat} :
    ∀ run ∈ runs previous index depths, index ≤ run.1 := by
  induction depths generalizing index previous with
  | nil => intro run member; cases member
  | cons depth rest ih =>
    intro run member
    rw [runs] at member
    split at member
    next => have := ih run member; omega
    next =>
      rcases List.mem_cons.mp member with rfl | later
      · exact Nat.le_refl _
      · have := ih run later
        omega

theorem runs_ascending (index : Nat) (previous : Option Nat) (depths : List Nat) :
    (runs previous index depths).Pairwise fun first second => first.1 < second.1 := by
  induction depths generalizing index previous with
  | nil => exact List.Pairwise.nil
  | cons depth rest ih =>
    rw [runs]
    split
    next => exact ih _ _
    next => exact List.pairwise_cons.mpr ⟨fun run member => runs_starts run member, ih _ _⟩

/-- The run an index stands in has its depth; before the first run the previous
depth goes on. -/
theorem standing_depth {index : Nat} {previous : Option Nat} {depths : List Nat} {offset : Nat}
    (inside : offset < depths.length) :
    (previous :: (runs previous index depths).map fun run => some run.2)[
      standing (runs previous index depths) (index + offset)]? = some depths[offset]? := by
  induction depths generalizing index previous offset with
  | nil => cases inside
  | cons depth rest ih =>
    have next := @runs_starts (index + 1) (some depth) rest
    have later : (some depth :: (runs (some depth) (index + 1) rest).map fun run => some run.2)[
        standing (runs (some depth) (index + 1) rest) (index + offset)]? = some (depth :: rest)[offset]? := by
      cases offset with
      | zero =>
        rw [standing_eq_zero fun run member => by have := next run member; omega]
        rfl
      | succ offset =>
        have found := @ih (index + 1) (some depth) offset (Nat.lt_of_succ_lt_succ inside)
        rw [show index + (offset + 1) = index + 1 + offset by omega]
        exact found
    rw [runs]
    split
    next same =>
      subst same
      exact later
    next different =>
      rw [standing_cons, if_pos (Nat.le_add_right ..), List.map_cons, List.getElem?_cons_succ]
      exact later

/-- The level's table holds the join of every window that fits. -/
def Level (value : Nat → Nat) (runs level : Nat) (table : List Nat) : Prop :=
  ∀ index, index + 2 ^ level ≤ runs → table[index]? = some (window value index (2 ^ level))

theorem nextLevel_level {value : Nat → Nat} {runs level : Nat} {previous : List Nat}
    (below : Level value runs level previous) : Level value runs (level + 1) (nextLevel runs (level + 1) previous) := by
  intro index inside
  have double : 2 ^ (level + 1) = 2 * 2 ^ level := Nat.pow_succ'
  have half : 2 ^ (level + 1) / 2 = 2 ^ level := by omega
  rw [nextLevel, List.getElem?_map, List.getElem?_range (by omega), Option.map_some, half, below index (by omega),
    below (index + 2 ^ level) (by omega), double, window_double]
  rfl

/-- Every level is built, each from the one below it. -/
theorem levels_built {value : Nat → Nat} {runs level : Nat} {base : List Nat} (based : Level value runs level base)
    {count height : Nat} (inside : height ≤ count) :
    ∃ table, (base :: levelsAbove runs count (level + 1) base)[height]? = some table ∧
      Level value runs (level + height) table := by
  induction height generalizing count level base with
  | zero => exact ⟨base, rfl, based⟩
  | succ height ih =>
    obtain ⟨smaller, rfl⟩ : ∃ smaller, count = smaller + 1 := ⟨count - 1, by omega⟩
    obtain ⟨table, found, holds⟩ := ih (nextLevel_level based) (Nat.le_of_succ_le_succ inside)
    refine ⟨table, ?_, by rwa [show level + (height + 1) = level + 1 + height by omega]⟩
    rw [List.getElem?_cons_succ, levelsAbove]
    exact found

/-- Two overlapping windows of the table cover any range of runs. -/
theorem table_cover {value : Nat → Nat} {runs first last : Nat} (ordered : first ≤ last) (inside : last < runs)
    {table : List Nat} (level : Level value runs (Nat.log2 (last - first + 1)) table) :
    ∃ left right, table[first]? = some left ∧ table[last + 1 - 2 ^ Nat.log2 (last - first + 1)]? = some right ∧
      2 ^ Nat.log2 (last - first + 1) ≤ last + 1 ∧ max left right = (Finset.Icc first last).sup value := by
  have reach : 2 ^ Nat.log2 (last - first + 1) ≤ last - first + 1 := Nat.log2_self_le (Nat.succ_ne_zero _)
  have overlap : last - first + 1 < 2 ^ Nat.log2 (last - first + 1) * 2 := by
    rw [← Nat.pow_succ]
    exact Nat.lt_log2_self
  unfold Level at level
  generalize 2 ^ Nat.log2 (last - first + 1) = width at *
  have cover : window value first (last - first + 1) =
      window value first width ⊔ window value (first + (last + 1 - width - first)) width :=
    window_cover value first reach (by omega) (by omega)
  rw [show first + (last + 1 - width - first) = last + 1 - width by omega, window_eq_Icc value ordered] at cover
  exact ⟨_, _, level first (by omega), level (last + 1 - width) (by omega), by omega, cover.symm⟩

/-- Every instruction stands in a run, and the run has its depth. -/
theorem standing_inside {depths : List Nat} {index : Nat} (inside : index < depths.length) :
    ∃ run, standing (runs none 0 depths) index = run + 1 ∧ run < (runs none 0 depths).length ∧
      depths[index]?.getD 0 = ((runs none 0 depths).map Prod.snd)[run]?.getD 0 := by
  have found := @standing_depth 0 none depths index inside
  rw [Nat.zero_add, List.getElem?_eq_getElem inside] at found
  cases point : standing (runs none 0 depths) index with
  | zero => simp [point] at found
  | succ run =>
    rw [point, List.getElem?_cons_succ, List.getElem?_map] at found
    obtain ⟨entry, present, same⟩ := Option.map_eq_some_iff.mp found
    obtain ⟨bound, -⟩ := List.getElem?_eq_some_iff.mp present
    refine ⟨run, rfl, bound, ?_⟩
    rw [List.getElem?_map, present, List.getElem?_eq_getElem inside]
    exact (Option.some.inj same).symm

theorem runOf_eq {info : LoopInfo} {runs : List (Nat × Nat)} (starts : info.runStarts = runs.map Prod.fst) {index run : Nat}
    (point : standing runs index = run + 1) : info.runOf index = run := by
  have counted : (info.runStarts.takeWhile fun start => start ≤ index).length = run + 1 := by
    rw [starts, List.takeWhile_map, List.length_map]
    exact point
  rw [runOf, counted, Nat.add_sub_cancel]

theorem sup_depth_clip (info : LoopInfo) (start stop : Nat) :
    (Finset.Icc start stop).sup info.depth = (Finset.Icc start (min stop (info.depths.length - 1))).sup info.depth := by
  apply Nat.le_antisymm
  · apply Finset.sup_le
    intro index member
    obtain ⟨above, below⟩ := Finset.mem_Icc.mp member
    by_cases real : index < info.depths.length
    · exact Finset.le_sup (f := info.depth) (Finset.mem_Icc.mpr ⟨above, by omega⟩)
    · rw [depth, List.getElem?_eq_none (by omega)]
      exact Nat.zero_le _
  · exact Finset.sup_mono (Finset.Icc_subset_Icc_right (Nat.min_le_left ..))

/-- What the table accesses of a query rest on: both ends stand in runs in order,
the level exists and both windows lie inside it. -/
structure Accessible (info : LoopInfo) (start stop : Nat) : Prop where
  standing : 0 < (info.runStarts.takeWhile fun run => run ≤ start).length
  ordered : info.runOf start ≤ info.runOf stop
  level : ∃ table, info.runMax[Nat.log2 (info.runOf stop - info.runOf start + 1)]? = some table ∧
    info.runOf start < table.length ∧ 2 ^ Nat.log2 (info.runOf stop - info.runOf start + 1) ≤ info.runOf stop + 1 ∧
    info.runOf stop + 1 - 2 ^ Nat.log2 (info.runOf stop - info.runOf start + 1) < table.length

theorem sup_depth_eq_zero {info : LoopInfo} {start stop : Nat} (zero : ∀ index, start ≤ index → info.depth index = 0) :
    (Finset.Icc start stop).sup info.depth = 0 := by
  apply Nat.le_zero.mp
  apply Finset.sup_le
  intro index member
  rw [zero index (Finset.mem_Icc.mp member).1]

theorem depth_le_max {depths : List Nat} (index : Nat) : depths[index]?.getD 0 ≤ depths.max?.getD 0 := by
  cases found : depths[index]? with
  | none => exact Nat.zero_le _
  | some depth =>
    have member := List.mem_of_getElem? found
    cases top : depths.max? with
    | none =>
      rw [List.max?_eq_none_iff.mp top] at member
      cases member
    | some most => exact (List.max?_eq_some_iff.mp top).2 depth member

/-- The index over a list of depths answers with the largest depth of the range. -/
theorem fromDepths_range (depths : List Nat) {start stop : Nat} (ordered : start ≤ stop) :
    (fromDepths depths).maxDepthInRange start stop = (Finset.Icc start stop).sup (fromDepths depths).depth ∧
      ((fromDepths depths).maxDepth ≠ 0 → start < depths.length →
        Accessible (fromDepths depths) start (min stop (depths.length - 1))) := by
  by_cases flat : depths.max?.getD 0 = 0
  · have made : fromDepths depths = ⟨depths, 0, [], []⟩ := by simp [fromDepths, flat]
    rw [made, maxDepthInRange, if_pos rfl]
    refine ⟨(sup_depth_eq_zero fun index _ => ?_).symm, fun deep => absurd rfl deep⟩
    exact Nat.le_zero.mp (flat ▸ depth_le_max index)
  set info := fromDepths depths with named
  have sameDepths : info.depths = depths := by rw [named, fromDepths]; split <;> rfl
  have deep : info.maxDepth = depths.max?.getD 0 := by rw [named, fromDepths]; split <;> rfl
  let found := runs none 0 depths
  let value : Nat → Nat := fun run => (found.map Prod.snd)[run]?.getD 0
  have starts : info.runStarts = found.map Prod.fst := by simp only [named, fromDepths, if_neg flat, found]
  have levels : info.runMax = found.map Prod.snd :: levelsAbove found.length (Nat.log2 found.length) 1 (found.map Prod.snd) := by
    simp only [named, fromDepths, if_neg flat, found]
  by_cases outside : depths.length ≤ start
  · rw [maxDepthInRange, if_neg (deep ▸ flat), if_pos (.inr (sameDepths ▸ outside))]
    refine ⟨(sup_depth_eq_zero fun index above => ?_).symm, fun _ inside => absurd inside (Nat.not_lt.mpr outside)⟩
    rw [depth, List.getElem?_eq_none (by rw [sameDepths]; omega), Option.getD_none]
  rw [maxDepthInRange, if_neg (deep ▸ flat), if_neg (by rw [sameDepths]; omega), sup_depth_clip, sameDepths]
  generalize clipped : min stop (depths.length - 1) = last
  have within : start ≤ last ∧ last < depths.length := by omega
  obtain ⟨firstRun, pointFirst, -, -⟩ := standing_inside (show start < depths.length by omega)
  obtain ⟨lastRun, pointLast, lastInside, -⟩ := standing_inside within.2
  obtain ⟨below, same⟩ := @sup_runs Nat _ _ info.depth value (fun index => standing found index - 1) start last
    within.1
    (fun index below => by
      obtain ⟨run, point, -, held⟩ := standing_inside (show index < depths.length by omega)
      simp only [found, point, value, Nat.add_sub_cancel, depth, sameDepths, held])
    (fun index below => by
      obtain ⟨run, point, -, -⟩ := standing_inside (show index < depths.length by omega)
      have stepped := standing_succ (runs_ascending 0 none depths) index
      simp only [found, point, Nat.add_sub_cancel] at stepped ⊢
      omega)
  simp only [found, pointFirst, pointLast, Nat.add_sub_cancel] at below same
  have based : Level value found.length 0 (found.map Prod.snd) := by
    intro index inside
    have present : index < (found.map Prod.snd).length := by rw [List.length_map]; omega
    rw [Nat.pow_zero, window_one]
    simp only [value]
    rw [List.getElem?_eq_getElem present, Option.getD_some]
  have fits : Nat.log2 (lastRun - firstRun + 1) ≤ Nat.log2 found.length := by
    apply (Nat.le_log2 (by simp only [found]; omega)).mpr
    refine Nat.le_trans (Nat.log2_self_le (Nat.succ_ne_zero _)) ?_
    simp only [found]
    omega
  obtain ⟨table, held, level⟩ := levels_built based fits
  rw [Nat.zero_add] at level
  obtain ⟨left, right, atFirst, atLast, reach, both⟩ := table_cover below (show lastRun < found.length from lastInside) level
  have first : info.runOf start = firstRun := runOf_eq starts pointFirst
  have final : info.runOf last = lastRun := runOf_eq starts pointLast
  constructor
  · simp only [levels, first, final, held, Option.getD_some, atFirst, atLast, both, same]
  · intro _ _
    refine ⟨?_, by omega, table, by rw [levels, first, final, held], ?_, ?_, ?_⟩
    · rw [starts, List.takeWhile_map, List.length_map]
      have point : standing found start = firstRun + 1 := pointFirst
      exact Nat.lt_of_lt_of_eq (Nat.succ_pos _) point.symm
    · rw [first]
      exact (List.getElem?_eq_some_iff.mp atFirst).1
    · rwa [first, final]
    · rw [first, final]
      exact (List.getElem?_eq_some_iff.mp atLast).1

theorem addDelta_sum {deltas : List Int} {index : Nat} (inside : index < deltas.length) (amount : Int) :
    ∃ after, addDelta deltas index amount = some after ∧ after.length = deltas.length ∧
      ∀ stop, (after.take stop).sum = (deltas.take stop).sum + if index < stop then amount else 0 := by
  refine ⟨deltas.set index (deltas[index] + amount), ?_, List.length_set .., ?_⟩
  · rw [addDelta, List.getElem?_eq_getElem inside]
    rfl
  · intro stop
    induction deltas generalizing index stop with
    | nil => cases inside
    | cons delta rest ih =>
      cases stop with
      | zero => simp
      | succ stop =>
        cases index with
        | zero => simp; omega
        | succ index =>
          have tail := ih (Nat.lt_of_succ_lt_succ inside) stop
          simp only [List.getElem_cons_succ, List.set_cons_succ, List.take_succ_cons, List.sum_cons, tail,
            Nat.add_lt_add_iff_right]
          omega

/-- The back edges of a successor table as pairs of target and source. -/
def backEdges (successors : List (List Nat)) : List (Nat × Nat) :=
  successors.zipIdx.flatMap fun (succs, source) => (succs.filter fun target => target ≤ source).map fun target => (target, source)

/-- How many of the back edges have the instruction in their interval. -/
def enclosing (edges : List (Nat × Nat)) (index : Nat) : Nat := edges.countP fun edge => edge.1 ≤ index ∧ index ≤ edge.2

/-- The deltas up to an instruction add up to the intervals around it. -/
def Counts (numInsts : Nat) (edges : List (Nat × Nat)) (deltas : List Int) : Prop :=
  deltas.length = numInsts + 1 ∧ ∀ index < numInsts, (deltas.take (index + 1)).sum = enclosing edges index

theorem markEdge_counts {numInsts source target : Nat} {edges : List (Nat × Nat)} {deltas : List Int}
    (counts : Counts numInsts edges deltas) (back : target ≤ source) (inside : source < numInsts) :
    ∃ after, markEdge source deltas target = some after ∧ Counts numInsts (edges ++ [(target, source)]) after := by
  obtain ⟨length, sums⟩ := counts
  obtain ⟨opened, first, openedLength, openedSum⟩ := @addDelta_sum deltas target (by omega) 1
  obtain ⟨after, second, afterLength, afterSum⟩ := @addDelta_sum opened (source + 1) (by omega) (-1)
  refine ⟨after, ?_, by omega, ?_⟩
  · simp only [markEdge, if_pos back, first, Option.bind_eq_bind, Option.bind_some, second]
  · intro index small
    simp only [afterSum, openedSum, sums index small, enclosing, List.countP_append, List.countP_singleton,
      decide_eq_true_eq]
    split <;> split <;> split <;> omega

theorem markEdges_counts {numInsts source : Nat} (succs : List Nat) {edges : List (Nat × Nat)} {deltas : List Int}
    (counts : Counts numInsts edges deltas) (inside : ∀ target ∈ succs, target ≤ source → source < numInsts) :
    ∃ after, succs.foldlM (markEdge source) deltas = some after ∧
      Counts numInsts (edges ++ (succs.filter fun target => target ≤ source).map fun target => (target, source)) after := by
  induction succs generalizing edges deltas with
  | nil => exact ⟨deltas, rfl, by simpa using counts⟩
  | cons target rest ih =>
    obtain ⟨first, others⟩ := List.forall_mem_cons.mp inside
    simp only [List.foldlM_cons]
    by_cases back : target ≤ source
    · obtain ⟨marked, step, counts⟩ := markEdge_counts counts back (first back)
      obtain ⟨after, run, counts⟩ := ih counts others
      refine ⟨after, by simp only [step, Option.bind_eq_bind, Option.bind_some, run], ?_⟩
      simpa [back] using counts
    · obtain ⟨after, run, counts⟩ := ih counts others
      refine ⟨after, by simp only [markEdge, if_neg back, Option.bind_eq_bind, Option.bind_some, run], ?_⟩
      simpa [back] using counts

theorem deltas_count {numInsts : Nat} (rows : List (List Nat × Nat)) {edges : List (Nat × Nat)} {deltas : List Int}
    (counts : Counts numInsts edges deltas)
    (inside : ∀ row ∈ rows, ∀ target ∈ row.1, target ≤ row.2 → row.2 < numInsts) :
    ∃ after, rows.foldlM (fun deltas (succs, source) => succs.foldlM (markEdge source) deltas) deltas = some after ∧
      Counts numInsts (edges ++ rows.flatMap fun (succs, source) =>
        (succs.filter fun target => target ≤ source).map fun target => (target, source)) after := by
  induction rows generalizing edges deltas with
  | nil => exact ⟨deltas, rfl, by simpa using counts⟩
  | cons row rest ih =>
    obtain ⟨first, others⟩ := List.forall_mem_cons.mp inside
    obtain ⟨marked, step, counts⟩ := markEdges_counts row.1 counts first
    obtain ⟨after, run, counts⟩ := ih counts others
    refine ⟨after, by simp only [List.foldlM_cons, step, Option.bind_eq_bind, Option.bind_some, run], ?_⟩
    rw [List.flatMap_cons, ← List.append_assoc]
    exact counts

theorem accumulate_get (enclosing : Int) (deltas : List Int) {index : Nat} (inside : index < deltas.length) :
    (accumulate enclosing deltas)[index]? =
      let sum := enclosing + (deltas.take (index + 1)).sum
      some (if 0 ≤ sum ∧ sum ≤ u32Max then sum.toNat else u32Max) := by
  induction deltas generalizing enclosing index with
  | nil => cases inside
  | cons delta rest ih =>
    cases index with
    | zero => simp [accumulate]
    | succ index =>
      rw [accumulate, List.getElem?_cons_succ, ih _ (Nat.lt_of_succ_lt_succ inside), List.take_succ_cons, List.sum_cons,
        Int.add_assoc]

theorem length_accumulate (enclosing : Int) (deltas : List Int) : (accumulate enclosing deltas).length = deltas.length := by
  induction deltas generalizing enclosing with
  | nil => rfl
  | cons delta rest ih => rw [accumulate, List.length_cons, List.length_cons, ih]

/-- The depths are the numbers of enclosing back edges, clipped to a `u32`. -/
theorem computeLoopInfo_counts {numInsts : Nat} {successors : List (List Nat)}
    (inside : ∀ edge ∈ backEdges successors, edge.2 < numInsts) : ∃ depths, depths.length = numInsts ∧
      (∀ index < numInsts, depths[index]? = some (min (enclosing (backEdges successors) index) u32Max)) ∧
      computeLoopInfo numInsts successors = some (fromDepths depths) := by
  have start : Counts numInsts [] (List.replicate (numInsts + 1) 0) := by
    refine ⟨List.length_replicate, fun index _ => ?_⟩
    simp [List.take_replicate, enclosing]
  obtain ⟨deltas, run, length, sums⟩ := deltas_count successors.zipIdx start (by
    intro row member target among back
    exact inside (target, row.2) (List.mem_flatMap.mpr ⟨row, member, List.mem_map.mpr
      ⟨target, List.mem_filter.mpr ⟨among, decide_eq_true back⟩, rfl⟩⟩))
  rw [List.nil_append] at sums
  refine ⟨accumulate 0 (deltas.take numInsts), by rw [length_accumulate, List.length_take]; omega, ?_, ?_⟩
  · intro index small
    have sum := sums index small
    rw [accumulate_get 0 _ (by rw [List.length_take]; omega), List.take_take, Nat.min_eq_left small]
    simp only [sum, Int.zero_add, backEdges]
    congr 1
    split <;> omega
  · rw [computeLoopInfo]
    split
    next none =>
      subst none
      rfl
    next => rw [run]; rfl

/-- Range maxima are exact, and a depth is the number of enclosing back edges as
far as a `u32` can tell. -/
theorem computeLoopInfo_exact (numInsts : Nat) (successors : List (List Nat))
    (inside : ∀ edge ∈ backEdges successors, edge.2 < numInsts) :
    ∃ info, computeLoopInfo numInsts successors = some info ∧
      (∀ index, info.depth index =
        if index < numInsts then min (enclosing (backEdges successors) index) u32Max else 0) ∧
      ∀ start stop, start ≤ stop →
        info.maxDepthInRange start stop = (Finset.Icc start stop).sup info.depth ∧
        (info.maxDepth ≠ 0 → start < numInsts → Accessible info start (min stop (numInsts - 1))) := by
  obtain ⟨depths, length, counts, computed⟩ := computeLoopInfo_counts inside
  refine ⟨fromDepths depths, computed, fun index => ?_, fun start stop ordered => ?_⟩
  · have same : (fromDepths depths).depths = depths := by rw [fromDepths]; split <;> rfl
    rw [depth, same]
    split
    next small => rw [counts index small, Option.getD_some]
    next large => rw [List.getElem?_eq_none (by omega), Option.getD_none]
  · rw [← length]
    exact fromDepths_range depths ordered

/-- Two loops, one inside the other. -/
theorem computeLoopInfo_nested : ∃ info, computeLoopInfo 4 [[1], [2], [3, 1], [0]] = some info ∧
    (∀ index, info.depth index =
      if index < 4 then min (enclosing (backEdges [[1], [2], [3, 1], [0]]) index) u32Max else 0) ∧
    ∀ start stop, start ≤ stop →
      info.maxDepthInRange start stop = (Finset.Icc start stop).sup info.depth ∧
      (info.maxDepth ≠ 0 → start < 4 → Accessible info start (min stop (4 - 1))) :=
  computeLoopInfo_exact 4 [[1], [2], [3, 1], [0]] (by decide)

theorem backEdges_repeated (count : Nat) : backEdges [List.replicate count 0] = List.replicate count (0, 0) := by
  simp [backEdges]

theorem enclosing_repeated (count : Nat) : enclosing (List.replicate count (0, 0)) 0 = count := by
  rw [enclosing, List.countP_replicate, if_pos (by decide)]

/-- More enclosing back edges than a `u32` counts. -/
theorem depth_saturates : ¬∀ numInsts successors, (∀ edge ∈ backEdges successors, edge.2 < numInsts) →
    ∃ info, computeLoopInfo numInsts successors = some info ∧
      ∀ index < numInsts, info.depth index = enclosing (backEdges successors) index := by
  intro claimed
  obtain ⟨count, large⟩ : ∃ count, u32Max < count := ⟨2 ^ 32, by decide⟩
  have inside : ∀ edge ∈ backEdges [List.replicate count 0], edge.2 < 1 := by
    rw [backEdges_repeated]
    intro edge member
    rw [List.eq_of_mem_replicate member]
    exact Nat.one_pos
  obtain ⟨info, computed, exactly⟩ := claimed 1 [List.replicate count 0] inside
  obtain ⟨depths, -, counts, built⟩ := computeLoopInfo_counts inside
  rw [built] at computed
  obtain rfl := Option.some.inj computed
  have same : (fromDepths depths).depths = depths := by rw [fromDepths]; split <;> rfl
  have clipped := exactly 0 Nat.one_pos
  rw [depth, same, counts 0 Nat.one_pos, Option.getD_some, backEdges_repeated, enclosing_repeated] at clipped
  omega

end Rue.Proofs.LoopDepth
