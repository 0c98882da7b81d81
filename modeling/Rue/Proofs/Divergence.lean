import Rue.Proofs.SolveRun

/-! The diverging set is closed: an instruction that is marked and does not
itself abort has only marked successors. Every edge into a marked instruction is
retired once, so a count that reaches zero has seen every successor. -/

namespace Rue.Proofs.Divergence
open Rue.Codegen Liveness Rue.Lib Csr Blocks SolveRun

variable {successors : Successors}

/-- The edges of an instruction that lead to no popped instruction. -/
def remaining (successors : Successors) (popped : List Nat) (index : Nat) : Nat :=
  (succs successors index).countP fun next => next ∉ popped

/-- What holds while the edges into one instruction are retired; `filed` are the
sources of those retired so far. -/
structure Marked (successors : Successors) (seeds popped filed : List Nat) (state : DivergenceState) : Prop where
  counted : ∀ index, state.diverging index = false →
    state.unmarked index + filed.count index = remaining successors popped index
  closed : ∀ index, state.diverging index = true →
    index ∈ seeds ∨ ∀ next ∈ succs successors index, state.diverging next = true
  distinct : state.worklist.Nodup
  waiting : ∀ index ∈ state.worklist, state.diverging index = true ∧ index ∉ popped ∧ index < successors.length
  reached : ∀ index ∈ popped, state.diverging index = true

/-- The row of an instruction lists each source once for each edge. -/
structure Row (successors : Successors) (current : Nat) (row : List Nat) : Prop where
  count : ∀ source, row.count source = (succs successors source).count current
  inside : ∀ source ∈ row, source < successors.length

variable {popped seeds : List Nat}

theorem remaining_pop (successors : Successors) {current : Nat} (fresh : current ∉ popped) (index : Nat) :
    remaining successors popped index =
      remaining successors (current :: popped) index + (succs successors index).count current := by
  simp only [remaining]
  induction succs successors index with
  | nil => rfl
  | cons next rest ih =>
    by_cases same : next = current
    · subst same
      simp only [List.countP_cons, List.count_cons, fresh, List.mem_cons, true_or, not_true, not_false_eq_true, decide_true,
        decide_false, ite_true, Bool.false_eq_true, ite_false, BEq.rfl, ih]
      omega
    · simp only [List.countP_cons, List.count_cons, List.mem_cons, same, false_or, beq_iff_eq, ite_false, ih]
      omega

variable {state : DivergenceState}

/-- A source whose every remaining edge leads to the current instruction has
only marked successors. -/
private theorem succs_marked {filed : List Nat} {current source : Nat}
    (kept : Marked successors seeds popped filed state) (marked : state.diverging current = true)
    (exhausted : remaining successors (current :: popped) source = 0) :
    ∀ next ∈ succs successors source, state.diverging next = true := by
  intro next edge
  have found := List.countP_eq_zero.mp exhausted next edge
  simp only [decide_eq_true_eq, not_not] at found
  rcases List.mem_cons.mp found with rfl | earlier
  · exact marked
  · exact kept.reached next earlier

theorem Marked.retire {filed : List Nat} {current source : Nat} {row rest : List Nat}
    (kept : Marked successors seeds popped filed state) (fresh : current ∉ popped)
    (marked : state.diverging current = true) (idle : current ∉ state.worklist)
    (listed : Row successors current row) (split : row = filed ++ source :: rest) :
    Marked successors seeds popped (filed ++ [source]) (state.retire source) ∧
      (state.retire source).diverging current = true ∧ current ∉ (state.retire source).worklist := by
  have recount : ∀ other, (filed ++ [source]).count other = filed.count other + if source = other then 1 else 0 := by
    intro other
    simp [List.count_append, List.count_singleton]
  unfold DivergenceState.retire
  split
  next already =>
    refine ⟨⟨?_, kept.closed, kept.distinct, kept.waiting, kept.reached⟩, marked, idle⟩
    intro other unmarked
    have different : source ≠ other := by
      rintro rfl
      rw [already] at unmarked
      cases unmarked
    rw [recount, if_neg different]
    exact kept.counted other unmarked
  next unmarked =>
    have unmarked : state.diverging source = false := by simpa using unmarked
    have counted := kept.counted source unmarked
    have edges := listed.count source
    have leaves := remaining_pop successors fresh source
    have present : row.count source = filed.count source + 1 + rest.count source := by
      rw [split, List.count_append, List.count_cons_self]
      omega
    have different : current ≠ source := by
      rintro rfl
      rw [marked] at unmarked
      cases unmarked
    have recounted : ∀ other, state.diverging other = false →
        Function.update state.unmarked source (state.unmarked source - 1) other + (filed ++ [source]).count other =
          remaining successors popped other := by
      intro other otherUnmarked
      have old := kept.counted other otherUnmarked
      rw [recount]
      by_cases same : source = other
      · subst same
        rw [Function.update_self, if_pos rfl]
        omega
      · rw [Function.update_of_ne (Ne.symm same), if_neg same]
        exact old
    dsimp only
    split
    next zero =>
      rw [Function.update_self] at zero
      have grows : ∀ other, state.diverging other = true → Function.update state.diverging source true other = true := by
        intro other before
        by_cases same : other = source
        · rw [same, Function.update_self]
        · rwa [Function.update_of_ne same]
      have next : ∀ next ∈ succs successors source, state.diverging next = true :=
        succs_marked kept marked (by omega)
      refine ⟨⟨?_, ?_, ?_, ?_, ?_⟩, ?_, ?_⟩
      · intro other otherUnmarked
        dsimp only at otherUnmarked
        by_cases same : other = source
        · rw [same, Function.update_self] at otherUnmarked
          cases otherUnmarked
        · rw [Function.update_of_ne same] at otherUnmarked
          exact recounted other otherUnmarked
      · intro other diverges
        dsimp only at diverges
        by_cases same : other = source
        · subst same
          exact Or.inr fun target edge => grows target (next target edge)
        · rw [Function.update_of_ne same] at diverges
          exact (kept.closed other diverges).imp id fun all target edge => grows target (all target edge)
      · refine List.nodup_cons.mpr ⟨fun member => ?_, kept.distinct⟩
        rw [(kept.waiting source member).1] at unmarked
        cases unmarked
      · intro other member
        rcases List.mem_cons.mp member with rfl | older
        · refine ⟨Function.update_self .., fun popped => ?_, listed.inside other (by rw [split]; simp)⟩
          rw [kept.reached other popped] at unmarked
          cases unmarked
        · obtain ⟨diverges, rest⟩ := kept.waiting other older
          exact ⟨grows other diverges, rest⟩
      · exact fun other member => grows other (kept.reached other member)
      · exact grows current marked
      · exact fun member => (List.mem_cons.mp member).elim different idle
    next => exact ⟨⟨recounted, kept.closed, kept.distinct, kept.waiting, kept.reached⟩, marked, idle⟩

theorem Marked.pop {current : Nat} {row worklist : List Nat}
    (kept : Marked successors seeds popped [] state) (next : state.worklist = current :: worklist)
    (listed : Row successors current row) :
    Marked successors seeds (current :: popped) [] (row.foldl .retire { state with worklist }) := by
  obtain ⟨marked, fresh, _⟩ := kept.waiting current (by simp [next])
  have distinct := kept.distinct
  rw [next, List.nodup_cons] at distinct
  have fold : ∀ rest filed (state : DivergenceState), row = filed ++ rest → Marked successors seeds popped filed state →
      state.diverging current = true → current ∉ state.worklist →
      Marked successors seeds popped row (rest.foldl .retire state) ∧
        (rest.foldl .retire state).diverging current = true ∧ current ∉ (rest.foldl .retire state).worklist := by
    intro rest
    induction rest with
    | nil =>
      intro filed state whole kept marked idle
      rw [List.append_nil] at whole
      exact ⟨whole ▸ kept, marked, idle⟩
    | cons source rest ih =>
      intro filed state whole kept marked idle
      obtain ⟨kept', marked', idle'⟩ := kept.retire fresh marked idle listed whole
      exact ih (filed ++ [source]) _ (by simp [whole]) kept' marked' idle'
  obtain ⟨settled, marked', idle'⟩ := fold row [] { state with worklist } rfl
    ⟨kept.counted, kept.closed, distinct.2, fun index member => kept.waiting index (by simp [next, member]), kept.reached⟩
    marked distinct.1
  refine ⟨?_, settled.closed, settled.distinct, ?_, ?_⟩
  · intro index unmarked
    have counted := settled.counted index unmarked
    rw [listed.count, remaining_pop successors fresh] at counted
    simp only [List.count_nil]
    omega
  · intro index member
    obtain ⟨diverges, unpopped, inside⟩ := settled.waiting index member
    refine ⟨diverges, fun either => ?_, inside⟩
    rcases List.mem_cons.mp either with rfl | earlier
    · exact idle' member
    · exact unpopped earlier
  · intro index member
    rcases List.mem_cons.mp member with rfl | earlier
    · exact marked'
    · exact settled.reached index earlier

theorem drain_closed {rows : Nat → List Nat} (listed : ∀ current < successors.length, Row successors current (rows current))
    (fuel : Nat) (kept : Marked successors seeds popped [] state) :
    ∀ index, (DivergenceState.drain rows fuel state).diverging index = true →
      index ∈ seeds ∨ ∀ next ∈ succs successors index, (DivergenceState.drain rows fuel state).diverging next = true := by
  induction fuel generalizing state popped with
  | zero => exact kept.closed
  | succ fuel ih =>
    unfold DivergenceState.drain
    split
    · exact kept.closed
    next current worklist next =>
      exact ih (kept.pop next (listed current (kept.waiting current (by simp [next])).2.2))

private theorem count_row (targets : List (List Nat)) (first target source : Nat) :
    (row (incomingEdges (targets.zipIdx first)) target).count source =
      if first ≤ source then (targets[source - first]?.getD []).count target else 0 := by
  induction targets generalizing first with
  | nil => simp [incomingEdges, row]
  | cons head rest ih =>
    have split : incomingEdges ((head :: rest).zipIdx first) =
        (head.map fun target => (target, first)) ++ incomingEdges (rest.zipIdx (first + 1)) := rfl
    have own : (row (head.map fun target => (target, first)) target).count source =
        if first = source then head.count target else 0 := by
      have constant : row (head.map fun target => (target, first)) target = List.replicate (head.count target) first := by
        rw [row, List.filter_map, List.map_map, List.count, List.countP_eq_length_filter]
        exact List.map_const'
      rw [constant, List.count_replicate]
      simp
    rw [split, row_append, List.count_append, own, ih]
    by_cases same : first = source
    · subst same
      simp
    · by_cases below : first ≤ source
      · obtain ⟨offset, rfl⟩ : ∃ offset, source = first + 1 + offset := ⟨source - first - 1, by omega⟩
        rw [if_neg same, if_pos (by omega), if_pos below, show first + 1 + offset - first = offset + 1 by omega]
        simp
      · rw [if_neg same, if_neg (by omega), if_neg below]

theorem predecessorRows_spec (targets : ∀ source, ∀ target ∈ succs successors source, target < successors.length)
    (current : Nat) (inside : current < successors.length) :
    Row successors current (predecessorRows successors current) := by
  have edgesInside : ∀ edge ∈ incomingEdges successors.zipIdx, edge.1 < successors.length := by
    rintro ⟨target, source⟩ member
    obtain ⟨listed, found, named⟩ := mem_incomingEdges.mp member
    rw [List.mem_zipIdx_iff_getElem?] at found
    exact targets source target (by rw [succs, found]; exact named)
  have sums := prefixSums_counts (incomingEdges successors.zipIdx) successors.length
  have rows : predecessorRows successors current = row (incomingEdges successors.zipIdx) current := by
    simp only [predecessorRows]
    rw [sums current (Nat.le_of_lt inside), sums (current + 1) inside]
    exact slice_fill edgesInside _ _ (fun key small => sums key (Nat.le_of_lt small)) inside
  rw [rows]
  refine ⟨fun source => by simpa [succs] using count_row successors 0 current source, ?_⟩
  intro source member
  obtain ⟨listed, found, _⟩ := mem_incomingEdges.mp (mem_row.mp member)
  rw [List.mem_zipIdx_iff_getElem?] at found
  exact (List.getElem?_eq_some_iff.mp found).1

/-- The walk starts with the never-returning instructions marked. -/
theorem Marked.start {nonReturning : List Bool} (sized : nonReturning.length = successors.length) :
    let seeds := (List.range nonReturning.length).filter fun index => nonReturning[index]?.getD false
    Marked successors seeds [] []
      { diverging := fun index => seeds.contains index
        unmarked := fun index => (succs successors index).length
        worklist := seeds.reverse } := by
  intro seeds
  refine ⟨?_, ?_, ?_, ?_, ?_⟩
  · exact fun index _ => by simp [remaining]
  · exact fun index diverges => Or.inl (by simpa using diverges)
  · exact List.nodup_reverse.mpr (List.nodup_range.filter _)
  · intro index member
    have member := List.mem_reverse.mp member
    refine ⟨by simpa using member, by simp, ?_⟩
    have := List.mem_range.mp (List.mem_filter.mp member).1
    omega
  · exact fun index member => absurd member List.not_mem_nil

/-- A marked instruction aborts itself, or all its successors are marked. -/
theorem computeDivergence_closed {nonReturning : List Bool}
    (targets : ∀ source, ∀ target ∈ succs successors source, target < successors.length)
    (sized : nonReturning.length = successors.length) {index : Nat}
    (marked : (computeDivergence successors nonReturning)[index]?.getD false = true) :
    nonReturning[index]?.getD false = true ∨
      ∀ next ∈ succs successors index, (computeDivergence successors nonReturning)[next]?.getD false = true := by
  let seeds := (List.range nonReturning.length).filter fun index => nonReturning[index]?.getD false
  by_cases none' : seeds.isEmpty = true
  · have unmarked : computeDivergence successors nonReturning = List.replicate successors.length false := if_pos none'
    rw [unmarked, List.getElem?_replicate] at marked
    split at marked <;> cases marked
  · let initial : DivergenceState :=
      { diverging := fun index => seeds.contains index
        unmarked := fun index => (succs successors index).length
        worklist := seeds.reverse }
    let final := DivergenceState.drain (predecessorRows successors) successors.length initial
    have entries : ∀ index, (computeDivergence successors nonReturning)[index]?.getD false =
        (decide (index < successors.length) && final.diverging index) := by
      intro index
      have table : computeDivergence successors nonReturning = (List.range successors.length).map final.diverging :=
        if_neg none'
      rw [table, List.getElem?_map]
      by_cases inside : index < successors.length
      · simp [inside]
      · simp [inside]
    have closed := drain_closed (predecessorRows_spec targets) successors.length (Marked.start sized) index
    rw [entries, Bool.and_eq_true] at marked
    rcases closed marked.2 with seed | all
    · exact Or.inl (List.mem_filter.mp seed).2
    · refine Or.inr fun next edge => ?_
      rw [entries, Bool.and_eq_true]
      exact ⟨decide_eq_true (targets index next edge), all next edge⟩

end Rue.Proofs.Divergence

/-! The divergence marks are exactly the least set that contains the aborting
calls and every instruction all of whose successors it contains. The counts
make the walk complete; the order of the marks makes it well founded. -/

namespace Rue.Proofs.Divergence
open Rue.Codegen Liveness Rue.Lib Csr Blocks SolveRun

variable {successors : Successors} {nonReturning : List Bool}

/-- An instruction control can only leave by aborting: it never returns itself,
or it has successors and they all diverge. -/
inductive Diverges (successors : Successors) (nonReturning : List Bool) : Nat → Prop where
  | never {index : Nat} (never : nonReturning[index]?.getD false = true) : Diverges successors nonReturning index
  | all {index : Nat} (some : succs successors index ≠ [])
      (all : ∀ next ∈ succs successors index, Diverges successors nonReturning next) : Diverges successors nonReturning index

/-- Control can get from an instruction to one it stops at, a return or a trap,
without executing a never-returning call. -/
inductive Leaves (successors : Successors) (nonReturning : List Bool) : Nat → Prop where
  | ends {index : Nat} (returns : nonReturning[index]?.getD false = false) (last : succs successors index = []) :
      Leaves successors nonReturning index
  | onward {index next : Nat} (returns : nonReturning[index]?.getD false = false) (edge : next ∈ succs successors index)
      (rest : Leaves successors nonReturning next) : Leaves successors nonReturning index

/-- What a set must contain to be closed under divergence. -/
structure Closed (successors : Successors) (nonReturning : List Bool) (marked : Nat → Prop) : Prop where
  never : ∀ index, nonReturning[index]?.getD false = true → marked index
  all : ∀ index, succs successors index ≠ [] → (∀ next ∈ succs successors index, marked next) → marked index

theorem Diverges.least {marked : Nat → Prop} (closed : Closed successors nonReturning marked) {index : Nat}
    (diverges : Diverges successors nonReturning index) : marked index := by
  induction diverges with
  | never never => exact closed.never _ never
  | all some _ ih => exact closed.all _ some ih

theorem Leaves.not_diverges {index : Nat} (leaves : Leaves successors nonReturning index) :
    ¬Diverges successors nonReturning index := by
  induction leaves with
  | ends returns last =>
    intro diverges
    cases diverges with
    | never never => exact Bool.false_ne_true (returns.symm.trans never)
    | all some _ => exact some last
  | onward returns edge _ ih =>
    intro diverges
    cases diverges with
    | never never => exact Bool.false_ne_true (returns.symm.trans never)
    | all _ all => exact ih (all _ edge)

/-- No instruction of an endless walk without a never-returning call diverges. -/
theorem Diverges.no_loop {index : Nat} (diverges : Diverges successors nonReturning index) (walk : Nat → Nat)
    (moves : ∀ step, walk (step + 1) ∈ succs successors (walk step))
    (returns : ∀ step, nonReturning[walk step]?.getD false = false) (step : Nat) : walk step ≠ index := by
  induction diverges generalizing step with
  | never never =>
    rintro rfl
    exact Bool.false_ne_true ((returns step).symm.trans never)
  | all _ _ ih =>
    rintro rfl
    exact ih _ (moves step) (step + 1) rfl

/-- What the walk keeps besides the counts: each mark is justified, an unmarked
instruction still owes a successor, and a mark waits until it is popped. -/
structure Exact (successors : Successors) (nonReturning : List Bool) (popped : List Nat) (state : DivergenceState) : Prop where
  sound : ∀ index, state.diverging index = true → Diverges successors nonReturning index
  never : ∀ index, nonReturning[index]?.getD false = true → state.diverging index = true
  owing : ∀ index, state.diverging index = false → succs successors index ≠ [] → 0 < state.unmarked index
  accounted : ∀ index, state.diverging index = true → index ∈ popped ∨ index ∈ state.worklist

variable {state : DivergenceState}

theorem Exact.retire {seeds popped filed : List Nat} {current source : Nat} {row rest : List Nat}
    (exact : Exact successors nonReturning (current :: popped) state) (kept : Marked successors seeds popped filed state)
    (fresh : current ∉ popped) (marked : state.diverging current = true)
    (listed : Row successors current row) (split : row = filed ++ source :: rest) :
    Exact successors nonReturning (current :: popped) (state.retire source) := by
  unfold DivergenceState.retire
  split
  · exact exact
  next unmarked =>
    have unmarked : state.diverging source = false := by simpa using unmarked
    dsimp only
    split
    next zero =>
      rw [Function.update_self] at zero
      have edges := listed.count source
      have present : row.count source = filed.count source + 1 + rest.count source := by
        rw [split, List.count_append, List.count_cons_self]
        omega
      have some : succs successors source ≠ [] := by
        intro none'
        rw [none', List.count_nil] at edges
        omega
      have justified : Diverges successors nonReturning source := by
        have counted := kept.counted source unmarked
        have leaves := remaining_pop successors fresh source
        have exhausted : remaining successors (current :: popped) source = 0 := by omega
        refine .all some fun next edge => exact.sound next ?_
        have found := List.countP_eq_zero.mp exhausted next edge
        simp only [decide_eq_true_eq, not_not] at found
        rcases List.mem_cons.mp found with rfl | earlier
        · exact marked
        · exact kept.reached next earlier
      refine ⟨?_, ?_, ?_, ?_⟩
      · intro other diverges
        dsimp only at diverges
        by_cases same : other = source
        · exact same ▸ justified
        · rw [Function.update_of_ne same] at diverges
          exact exact.sound other diverges
      · intro other stays
        dsimp only
        by_cases same : other = source
        · rw [same, Function.update_self]
        · rw [Function.update_of_ne same]
          exact exact.never other stays
      · intro other otherUnmarked some
        dsimp only at otherUnmarked ⊢
        by_cases same : other = source
        · rw [same, Function.update_self] at otherUnmarked
          cases otherUnmarked
        · rw [Function.update_of_ne same] at otherUnmarked ⊢
          exact exact.owing other otherUnmarked some
      · intro other diverges
        dsimp only at diverges ⊢
        by_cases same : other = source
        · exact Or.inr (same ▸ List.mem_cons_self)
        · rw [Function.update_of_ne same] at diverges
          exact (exact.accounted other diverges).imp id (List.mem_cons_of_mem source)
    next positive =>
      rw [Function.update_self] at positive
      refine ⟨exact.sound, exact.never, ?_, exact.accounted⟩
      intro other otherUnmarked some
      dsimp only at otherUnmarked ⊢
      by_cases same : other = source
      · rw [same, Function.update_self]
        omega
      · rw [Function.update_of_ne same]
        exact exact.owing other otherUnmarked some

/-- Popping an instruction and retiring its row keeps both halves. -/
theorem Exact.pop {seeds popped : List Nat} {current : Nat} {row worklist : List Nat}
    (exact : Exact successors nonReturning popped state) (kept : Marked successors seeds popped [] state)
    (next : state.worklist = current :: worklist) (listed : Row successors current row) :
    Exact successors nonReturning (current :: popped) (row.foldl .retire { state with worklist }) := by
  obtain ⟨marked, fresh, _⟩ := kept.waiting current (by simp [next])
  have distinct := kept.distinct
  rw [next, List.nodup_cons] at distinct
  have fold : ∀ rest filed (state : DivergenceState), row = filed ++ rest → Marked successors seeds popped filed state →
      state.diverging current = true → current ∉ state.worklist →
      Exact successors nonReturning (current :: popped) state →
      Exact successors nonReturning (current :: popped) (rest.foldl .retire state) := by
    intro rest
    induction rest with
    | nil => exact fun _ _ _ _ _ _ exact => exact
    | cons source rest ih =>
      intro filed state whole kept marked idle exact
      obtain ⟨kept', marked', idle'⟩ := kept.retire fresh marked idle listed whole
      exact ih (filed ++ [source]) _ (by simp [whole]) kept' marked' idle' (exact.retire kept fresh marked listed whole)
  refine fold row [] { state with worklist } rfl
    ⟨kept.counted, kept.closed, distinct.2, fun index member => kept.waiting index (by simp [next, member]), kept.reached⟩
    marked distinct.1 ⟨exact.sound, exact.never, exact.owing, ?_⟩
  intro index diverges
  rcases exact.accounted index diverges with earlier | waits
  · exact Or.inl (List.mem_cons_of_mem current earlier)
  · rw [next] at waits
    rcases List.mem_cons.mp waits with rfl | later
    · exact Or.inl List.mem_cons_self
    · exact Or.inr later

/-- Once the worklist is empty, an unmarked instruction with successors has one
that is unmarked too. -/
theorem Exact.settled {seeds popped : List Nat}
    (exact : Exact successors nonReturning popped state) (kept : Marked successors seeds popped [] state)
    (drained : state.worklist = []) {index : Nat} (some : succs successors index ≠ [])
    (all : ∀ next ∈ succs successors index, state.diverging next = true) : state.diverging index = true := by
  by_contra unmarked
  have unmarked : state.diverging index = false := by simpa using unmarked
  have counted := kept.counted index unmarked
  have owing := exact.owing index unmarked some
  have none' : remaining successors popped index = 0 := by
    apply List.countP_eq_zero.mpr
    intro next edge
    rcases exact.accounted next (all next edge) with earlier | waits
    · simpa using earlier
    · rw [drained] at waits
      cases waits
  omega

/-- Each instruction is popped once, so the instruction count is enough fuel to
empty the worklist. -/
theorem drain_exact {rows : Nat → List Nat} (listed : ∀ current < successors.length, Row successors current (rows current))
    {seeds popped : List Nat} (fuel : Nat) (kept : Marked successors seeds popped [] state)
    (exact : Exact successors nonReturning popped state) (once : popped.Nodup)
    (inside : ∀ index ∈ popped, index < successors.length) (enough : successors.length ≤ popped.length + fuel) :
    ∃ popped, Marked successors seeds popped [] (DivergenceState.drain rows fuel state) ∧
      Exact successors nonReturning popped (DivergenceState.drain rows fuel state) ∧
      (DivergenceState.drain rows fuel state).worklist = [] := by
  induction fuel generalizing state popped with
  | zero =>
    refine ⟨popped, kept, exact, List.eq_nil_iff_forall_not_mem.mpr fun index member => ?_⟩
    obtain ⟨_, unpopped, small⟩ := kept.waiting index member
    have crowded : (index :: popped).length ≤ (List.range successors.length).length := by
      apply List.Subperm.length_le
      apply List.subperm_of_subset (List.nodup_cons.mpr ⟨unpopped, once⟩)
      intro other either
      rcases List.mem_cons.mp either with rfl | earlier
      · exact List.mem_range.mpr small
      · exact List.mem_range.mpr (inside other earlier)
    simp only [List.length_cons, List.length_range] at crowded
    omega
  | succ fuel ih =>
    unfold DivergenceState.drain
    split
    next drained => exact ⟨popped, kept, exact, drained⟩
    next current worklist next =>
      obtain ⟨_, unpopped, small⟩ := kept.waiting current (by simp [next])
      have row := listed current small
      refine ih (kept.pop next row) (exact.pop kept next row) (List.nodup_cons.mpr ⟨unpopped, once⟩) ?_ ?_
      · intro index either
        rcases List.mem_cons.mp either with rfl | earlier
        · exact small
        · exact inside index earlier
      · simp only [List.length_cons]
        omega

/-- The marks of the walk from the never-returning instructions. -/
theorem computeDivergence_entries {nonReturning : List Bool}
    (targets : ∀ source, ∀ target ∈ succs successors source, target < successors.length)
    (sized : nonReturning.length = successors.length) :
    ∃ marked : Nat → Bool, (∀ index, (computeDivergence successors nonReturning)[index]?.getD false =
        (decide (index < successors.length) && marked index)) ∧
      (∀ index, marked index = true → Diverges successors nonReturning index) ∧
      (∀ index, nonReturning[index]?.getD false = true → marked index = true) ∧
      ∀ index, succs successors index ≠ [] → (∀ next ∈ succs successors index, marked next = true) → marked index = true := by
  let seeds := (List.range nonReturning.length).filter fun index => nonReturning[index]?.getD false
  have seeded : ∀ index, nonReturning[index]?.getD false = true → index ∈ seeds := by
    intro index stays
    refine List.mem_filter.mpr ⟨List.mem_range.mpr ?_, stays⟩
    by_contra outside
    rw [List.getElem?_eq_none (by omega)] at stays
    cases stays
  by_cases none' : seeds.isEmpty = true
  · have empty : seeds = [] := List.isEmpty_iff.mp none'
    have unmarked : computeDivergence successors nonReturning = List.replicate successors.length false := if_pos none'
    refine ⟨fun _ => false, ?_, nofun, ?_, ?_⟩
    · intro index
      rw [unmarked, List.getElem?_replicate, Bool.and_false]
      split <;> rfl
    · intro index stays
      have member := seeded index stays
      rw [empty] at member
      cases member
    · intro index some all
      obtain ⟨next, edge⟩ := List.exists_mem_of_ne_nil _ some
      exact all next edge
  · let initial : DivergenceState :=
      { diverging := fun index => seeds.contains index
        unmarked := fun index => (succs successors index).length
        worklist := seeds.reverse }
    have start : Exact successors nonReturning [] initial := by
      refine ⟨?_, ?_, ?_, ?_⟩
      · intro index diverges
        have member : index ∈ seeds := by simpa [initial] using diverges
        exact .never (List.mem_filter.mp member).2
      · exact fun index stays => by simpa [initial] using seeded index stays
      · exact fun index _ some => List.length_pos_of_ne_nil some
      · exact fun index diverges => Or.inr (List.mem_reverse.mpr (by simpa [initial] using diverges))
    obtain ⟨popped, kept, exact, drained⟩ := drain_exact (predecessorRows_spec targets) successors.length
      (Marked.start sized) start List.nodup_nil nofun (by simp)
    let final := DivergenceState.drain (predecessorRows successors) successors.length initial
    refine ⟨final.diverging, ?_, exact.sound, exact.never, fun index => exact.settled kept drained⟩
    intro index
    have table : computeDivergence successors nonReturning = (List.range successors.length).map final.diverging :=
      if_neg none'
    rw [table, List.getElem?_map]
    by_cases inside : index < successors.length
    · simp [inside]
    · simp [inside]

/-- The marked instructions are the least set that contains every
never-returning one and every instruction with successors, all of them marked.
None can get to a return without a never-returning call, and none belongs to a
loop without one. -/
theorem computeDivergence_least {nonReturning : List Bool}
    (targets : ∀ source, ∀ target ∈ succs successors source, target < successors.length)
    (sized : nonReturning.length = successors.length) :
    let marked := fun index => (computeDivergence successors nonReturning)[index]?.getD false = true
    (computeDivergence successors nonReturning).length = successors.length ∧
      Closed successors nonReturning marked ∧
      (∀ set, Closed successors nonReturning set → ∀ index, marked index → set index) ∧
      (∀ index, Leaves successors nonReturning index → ¬marked index) ∧
      ∀ walk : Nat → Nat, (∀ step, walk (step + 1) ∈ succs successors (walk step)) →
        (∀ step, nonReturning[walk step]?.getD false = false) → ∀ step, ¬marked (walk step) := by
  obtain ⟨table, entries, sound, never, all⟩ := computeDivergence_entries targets sized
  have diverges : ∀ index, (computeDivergence successors nonReturning)[index]?.getD false = true →
      Diverges successors nonReturning index := by
    intro index marked
    rw [entries, Bool.and_eq_true] at marked
    exact sound index marked.2
  refine ⟨?_, ⟨?_, ?_⟩, ?_, ?_, ?_⟩
  · unfold computeDivergence
    dsimp only
    split <;> simp
  · intro index stays
    have small : index < successors.length := by
      by_contra outside
      rw [List.getElem?_eq_none (by omega)] at stays
      cases stays
    rw [entries, Bool.and_eq_true]
    exact ⟨decide_eq_true small, never index stays⟩
  · intro index some marked
    have small : index < successors.length := by
      by_contra outside
      apply some
      rw [succs, List.getElem?_eq_none (by omega)]
      rfl
    rw [entries, Bool.and_eq_true]
    refine ⟨decide_eq_true small, all index some fun next edge => ?_⟩
    have marked := marked next edge
    rw [entries, Bool.and_eq_true] at marked
    exact marked.2
  · exact fun set closed index marked => (diverges index marked).least closed
  · exact fun index leaves marked => leaves.not_diverges (diverges index marked)
  · exact fun walk moves returns step marked => (diverges _ marked).no_loop walk moves returns step rfl

/-- A branch to a self loop and, by a doubled edge, to an aborting call. -/
theorem branch_to_abort_least :
    let successors : Successors := [[1, 2], [1], [3, 3], []]
    let nonReturning := [false, false, false, true]
    let marked := fun index => (computeDivergence successors nonReturning)[index]?.getD false = true
    Closed successors nonReturning marked ∧ ¬marked 0 ∧ ¬marked 1 ∧ marked 2 := by
  refine ⟨(@computeDivergence_least [[1, 2], [1], [3, 3], []] [false, false, false, true] ?_ rfl).2.1, by decide, by decide,
    by decide⟩
  intro source target edge
  rcases source with _ | _ | _ | _ | source
  all_goals simp [succs] at edge ⊢
  all_goals omega

end Rue.Proofs.Divergence
