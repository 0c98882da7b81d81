import Mathlib.Data.Finset.Lattice.Basic
import Mathlib.Order.WithBot
import Rue.Air.OwnershipState

/-! The move state after any tree of moves, reinitializations and joins says exactly
what may be moved and soundly what must be; joins form a semilattice. -/

namespace Rue.Proofs.Ownership.MoveStates
open Rue.Air Rue.Air.VariableMoveState

/-- The steps taken on one variable: a straight line, or two of them joined. -/
inductive Flow where
  | start
  | moved (before : Flow) (path : FieldPath) (span : Span)
  | reinitialized (before : Flow) (path : FieldPath)
  | joined (first second : Flow)

namespace Flow

def state : Flow → VariableMoveState
  | start => .default
  | moved before path span => before.state.markPathMoved path span
  | reinitialized before path => before.state.markPathReinitialized path
  | joined first second => mergeUnion first.state second.state

/-- For each way through the tree, the paths moved at its end. -/
def ends : Flow → List (Finset FieldPath)
  | start => [∅]
  | moved before path _ => before.ends.map fun moved => insert path moved
  | reinitialized before path => before.ends.map fun moved => moved.filter fun other => ¬path <+: other
  | joined first second => first.ends ++ second.ends

/-- What the analysis checks before it moves or reinitializes a path. -/
def Legal : Flow → Prop
  | start => True
  | moved before path _ => before.Legal ∧ ∀ moved ∈ before.ends, ∀ other ∈ moved, other ≠ path → ¬other <+: path ∧ ¬path <+: other
  | reinitialized before path =>
    before.Legal ∧ ∀ moved ∈ before.ends, [] ∉ moved ∧ ∀ other ∈ moved, other ≠ path → ¬other <+: path
  | joined first second => first.Legal ∧ second.Legal

end Flow

def keys (state : VariableMoveState) : List FieldPath := state.partialMoves.map Prod.fst

/-- A state tells what some ways through a tree may have moved and all of them must
have moved. -/
structure Exact (ends : List (Finset FieldPath)) (state : VariableMoveState) : Prop where
  whole : state.fullMove ≠ none ↔ ∃ moved ∈ ends, [] ∈ moved
  always : state.fullMoveOnAllPaths = true ↔ ∀ moved ∈ ends, [] ∈ moved
  parts : ∀ path, path ∈ keys state ↔ path ≠ [] ∧ ∃ moved ∈ ends, path ∈ moved
  must : ∀ path ∈ state.partialMovesOnAllPaths, ∀ moved ∈ ends, path ∈ moved ∨ [] ∈ moved

variable {ends : List (Finset FieldPath)} {state : VariableMoveState}

theorem exact_moved_whole (nonempty : ends ≠ []) (clear : ∀ moved ∈ ends, ∀ other ∈ moved, other = []) (span : Span) :
    Exact (ends.map fun moved => insert [] moved) (fullyMoved span) := by
  obtain ⟨one, inside⟩ := List.exists_mem_of_ne_nil _ nonempty
  refine ⟨⟨fun _ => ?_, fun _ => Option.some_ne_none span⟩, ⟨fun _ moved member => ?_, fun _ => rfl⟩, fun other => ?_,
    fun other member => absurd member (Finset.notMem_empty other)⟩
  · exact ⟨_, List.mem_map.mpr ⟨one, inside, rfl⟩, Finset.mem_insert_self _ _⟩
  · obtain ⟨before, -, rfl⟩ := List.mem_map.mp member
    exact Finset.mem_insert_self _ _
  · refine ⟨fun member => absurd member List.not_mem_nil, fun ⟨nonroot, moved, member, present⟩ => ?_⟩
    obtain ⟨before, early, rfl⟩ := List.mem_map.mp member
    rcases Finset.mem_insert.mp present with same | old
    · exact absurd same nonroot
    · exact absurd (clear before early other old) nonroot

/-- Before a part is moved nothing has moved the whole variable. -/
theorem Exact.unmoved (exact : Exact ends state) (nonempty : ends ≠ []) (clear : ∀ moved ∈ ends, [] ∉ moved) :
    state.fullMove = none ∧ state.fullMoveOnAllPaths ≠ true := by
  obtain ⟨one, inside⟩ := List.exists_mem_of_ne_nil _ nonempty
  refine ⟨not_not.mp fun full => ?_, fun all => clear one inside (exact.always.mp all one inside)⟩
  obtain ⟨moved, member, present⟩ := exact.whole.mp full
  exact clear moved member present

/-- With no way through that moves the whole variable, only the parts are left. -/
theorem Exact.parts_only (nonempty : ends ≠ []) (clear : ∀ moved ∈ ends, [] ∉ moved) (none' : state.fullMove = none)
    (notAlways : state.fullMoveOnAllPaths ≠ true)
    (parts : ∀ path, path ∈ keys state ↔ path ≠ [] ∧ ∃ moved ∈ ends, path ∈ moved)
    (must : ∀ path ∈ state.partialMovesOnAllPaths, ∀ moved ∈ ends, path ∈ moved) : Exact ends state := by
  obtain ⟨one, inside⟩ := List.exists_mem_of_ne_nil _ nonempty
  refine ⟨⟨fun full => absurd none' full, fun ⟨moved, member, present⟩ => absurd present (clear moved member)⟩,
    ⟨fun all => absurd all notAlways, fun all => absurd (all one inside) (clear one inside)⟩, parts,
    fun path member moved present => .inl (must path member moved present)⟩

theorem exact_moved_part (exact : Exact ends state) {path : FieldPath} (nonempty : ends ≠ []) (part : path ≠ [])
    (clear : ∀ moved ∈ ends, [] ∉ moved) (span : Span) :
    Exact (ends.map fun moved => insert path moved) (state.markPathMoved path span) := by
  obtain ⟨none', notAlways⟩ := exact.unmoved nonempty clear
  have step : (state.markPathMoved path span).fullMove = state.fullMove ∧
      (state.markPathMoved path span).fullMoveOnAllPaths = state.fullMoveOnAllPaths ∧
      (state.markPathMoved path span).partialMovesOnAllPaths = insert path state.partialMovesOnAllPaths ∧
      ∀ other, other ∈ keys (state.markPathMoved path span) ↔ other = path ∨ other ∈ keys state := by
    rw [markPathMoved, if_neg part, if_pos none']
    exact ⟨rfl, rfl, rfl, fun other => upsert_mem _ _ _ _⟩
  obtain ⟨full, flag, musts, member⟩ := step
  obtain ⟨one, inside⟩ := List.exists_mem_of_ne_nil _ nonempty
  refine Exact.parts_only (fun empty => nonempty (List.map_eq_nil_iff.mp empty)) (fun moved after present => ?_)
    (full.trans none') (flag ▸ notAlways) (fun other => ?_) fun other must moved after => ?_
  · obtain ⟨before, early, rfl⟩ := List.mem_map.mp after
    rcases Finset.mem_insert.mp present with same | old
    · exact part same.symm
    · exact clear before early old
  · rw [member, exact.parts]
    constructor
    · rintro (rfl | ⟨nonroot, moved, early, present⟩)
      · exact ⟨part, _, List.mem_map.mpr ⟨one, inside, rfl⟩, Finset.mem_insert_self _ _⟩
      · exact ⟨nonroot, _, List.mem_map.mpr ⟨moved, early, rfl⟩, Finset.mem_insert_of_mem present⟩
    · rintro ⟨nonroot, moved, after, present⟩
      obtain ⟨before, early, rfl⟩ := List.mem_map.mp after
      rcases Finset.mem_insert.mp present with same | old
      · exact .inl same
      · exact .inr ⟨nonroot, before, early, old⟩
  · obtain ⟨before, early, rfl⟩ := List.mem_map.mp after
    rw [musts] at must
    rcases Finset.mem_insert.mp must with rfl | old
    · exact Finset.mem_insert_self _ _
    · exact Finset.mem_insert_of_mem ((exact.must other old before early).resolve_right (clear before early))

theorem isPrefixOf_false {path other : FieldPath} : (!path.isPrefixOf other) = true ↔ ¬path <+: other := by
  rw [Bool.not_eq_true', ← Bool.not_eq_true, List.isPrefixOf_iff_prefix]

theorem mem_reinitialized (path other : FieldPath) :
    other ∈ keys (state.markPathReinitialized path) ↔ other ∈ keys state ∧ ¬path <+: other := by
  simp only [keys, markPathReinitialized, List.mem_map, List.mem_filter]
  constructor
  · rintro ⟨entry, ⟨inside, kept⟩, rfl⟩
    exact ⟨⟨entry, inside, rfl⟩, isPrefixOf_false.mp kept⟩
  · rintro ⟨⟨entry, inside, rfl⟩, kept⟩
    exact ⟨entry, ⟨inside, isPrefixOf_false.mpr kept⟩, rfl⟩

theorem exact_reinitialized (exact : Exact ends state) {path : FieldPath} (nonempty : ends ≠ [])
    (clear : ∀ moved ∈ ends, [] ∉ moved) :
    Exact (ends.map fun moved => moved.filter fun other => ¬path <+: other) (state.markPathReinitialized path) := by
  obtain ⟨none', notAlways⟩ := exact.unmoved nonempty clear
  refine Exact.parts_only (fun empty => nonempty (List.map_eq_nil_iff.mp empty)) (fun moved after present => ?_)
    none' notAlways (fun other => ?_) fun other must moved after => ?_
  · obtain ⟨before, early, rfl⟩ := List.mem_map.mp after
    exact clear before early (Finset.mem_filter.mp present).1
  · rw [mem_reinitialized, exact.parts]
    constructor
    · rintro ⟨⟨nonroot, moved, early, present⟩, kept⟩
      exact ⟨nonroot, _, List.mem_map.mpr ⟨moved, early, rfl⟩, Finset.mem_filter.mpr ⟨present, kept⟩⟩
    · rintro ⟨nonroot, moved, after, present⟩
      obtain ⟨before, early, rfl⟩ := List.mem_map.mp after
      obtain ⟨old, kept⟩ := Finset.mem_filter.mp present
      exact ⟨⟨nonroot, before, early, old⟩, kept⟩
  · obtain ⟨before, early, rfl⟩ := List.mem_map.mp after
    obtain ⟨old, kept⟩ := Finset.mem_filter.mp must
    exact Finset.mem_filter.mpr ⟨(exact.must other old before early).resolve_right (clear before early), isPrefixOf_false.mp kept⟩

/-- Where one branch moves the whole variable on every way, the other's parts survive. -/
theorem mem_mergeAllPaths {first second : VariableMoveState} {path : FieldPath}
    (member : path ∈ mergeAllPaths first second) :
    (first.fullMoveOnAllPaths = true ∨ path ∈ first.partialMovesOnAllPaths) ∧
      (second.fullMoveOnAllPaths = true ∨ path ∈ second.partialMovesOnAllPaths) := by
  rw [mergeAllPaths] at member
  split at member
  next all => exact ⟨.inl all, .inr member⟩
  next =>
    split at member
    next all => exact ⟨.inr member, .inl all⟩
    next => exact ⟨.inr (Finset.mem_inter.mp member).1, .inr (Finset.mem_inter.mp member).2⟩

theorem exact_joined {others : List (Finset FieldPath)} {other : VariableMoveState} (exact : Exact ends state)
    (beside : Exact others other) : Exact (ends ++ others) (mergeUnion state other) := by
  have branch : ∀ {ends state} (_ : Exact ends state) {path moved}, moved ∈ ends →
      state.fullMoveOnAllPaths = true ∨ path ∈ state.partialMovesOnAllPaths → path ∈ moved ∨ [] ∈ moved := by
    intro ends state exact path moved member either
    rcases either with all | must
    · exact .inr (exact.always.mp all moved member)
    · exact exact.must path must moved member
  refine ⟨?_, ?_, fun path => ?_, fun path member moved present => ?_⟩
  · have either : (mergeUnion state other).fullMove ≠ none ↔ state.fullMove ≠ none ∨ other.fullMove ≠ none := by
      simp only [mergeUnion, ne_eq, Option.or_eq_none_iff, not_and_or]
    simp only [either, exact.whole, beside.whole, List.mem_append, or_and_right, exists_or]
  · have both : (mergeUnion state other).fullMoveOnAllPaths = true ↔
        state.fullMoveOnAllPaths = true ∧ other.fullMoveOnAllPaths = true := Bool.and_eq_true_iff
    simp only [both, exact.always, beside.always, List.mem_append, or_imp, forall_and]
  · have either : path ∈ keys (mergeUnion state other) ↔ path ∈ keys state ∨ path ∈ keys other := unionPartial_mem _ _ _
    simp only [either, exact.parts, beside.parts, List.mem_append, or_and_right, exists_or, and_or_left]
  · obtain ⟨first, second⟩ := mem_mergeAllPaths member
    rcases List.mem_append.mp present with left | right
    · exact branch exact left first
    · exact branch beside right second

theorem Flow.ends_nonempty (flow : Flow) : flow.ends ≠ [] := by
  induction flow with
  | start => exact List.cons_ne_nil _ _
  | moved before path span ih => exact fun empty => ih (List.map_eq_nil_iff.mp empty)
  | reinitialized before path ih => exact fun empty => ih (List.map_eq_nil_iff.mp empty)
  | joined first second ih _ => exact fun empty => ih (List.append_eq_nil_iff.mp empty).1

theorem flow_exact (flow : Flow) (legal : flow.Legal) : Exact flow.ends flow.state := by
  induction flow with
  | start =>
    refine ⟨⟨fun full => absurd rfl full, fun ⟨moved, member, present⟩ => ?_⟩,
      ⟨fun all => Bool.noConfusion all, fun all => ?_⟩, fun path => ⟨fun member => ?_, fun ⟨_, moved, member, present⟩ => ?_⟩,
      fun path member => absurd member (Finset.notMem_empty path)⟩
    · rw [List.mem_singleton.mp member] at present
      exact absurd present (Finset.notMem_empty _)
    · exact absurd (all ∅ (List.mem_singleton.mpr rfl)) (Finset.notMem_empty _)
    · cases member
    · rw [List.mem_singleton.mp member] at present
      exact absurd present (Finset.notMem_empty _)
  | moved before path span ih =>
    have exact := ih legal.1
    by_cases root : path = []
    · subst root
      have whole : (before.moved [] span).state = fullyMoved span := by rw [Flow.state, markPathMoved, if_pos rfl]
      rw [whole]
      refine exact_moved_whole before.ends_nonempty (fun moved member other present => not_not.mp fun nonroot => ?_) span
      exact (legal.2 moved member other present nonroot).2 List.nil_prefix
    · refine exact_moved_part exact before.ends_nonempty root (fun moved member present => ?_) span
      exact (legal.2 moved member [] present (Ne.symm root)).1 List.nil_prefix
  | reinitialized before path ih =>
    exact exact_reinitialized (ih legal.1) before.ends_nonempty fun moved member => (legal.2 moved member).1
  | joined first second ihFirst ihSecond => exact exact_joined (ihFirst legal.1) (ihSecond legal.2)

theorem foldl_closer (path : FieldPath) (entries : List (FieldPath × Span)) (best : Option (Nat × Span)) :
    (entries.foldl (closer path) best).isSome = true ↔ best.isSome = true ∨ ∃ entry ∈ entries, entry.1 <+: path := by
  induction entries generalizing best with
  | nil => simp
  | cons entry rest ih =>
    have step : (closer path best entry).isSome = true ↔ best.isSome = true ∨ entry.1 <+: path := by
      rw [closer]
      split
      next above =>
        rw [List.isPrefixOf_iff_prefix] at above
        cases best with
        | none => simp [above]
        | some found =>
          simp only [Option.all_some, decide_eq_true_eq, above, or_true, iff_true]
          split <;> split <;> rfl
      next apart =>
        rw [List.isPrefixOf_iff_prefix] at apart
        simp [apart]
    rw [List.foldl_cons, ih, step, or_assoc, List.exists_mem_cons_iff]

theorem isPathMoved_isSome (state : VariableMoveState) (path : FieldPath) :
    (state.isPathMoved path).isSome = true ↔ state.fullMove ≠ none ∨ ∃ other ∈ keys state, other <+: path := by
  rw [isPathMoved]
  cases full : state.fullMove with
  | some span => simp
  | none => simp [foldl_closer, keys]

theorem movedStrictDescendant_isSome (state : VariableMoveState) (path : FieldPath) :
    (state.movedStrictDescendant path).isSome = true ↔ ∃ other ∈ keys state, path <+: other ∧ path ≠ other := by
  rw [movedStrictDescendant, List.find?_isSome]
  simp only [keys, List.mem_map, Bool.and_eq_true, decide_eq_true_eq, List.isPrefixOf_iff_prefix]
  constructor
  · rintro ⟨entry, inside, longer, below⟩
    exact ⟨entry.1, ⟨entry, inside, rfl⟩, below, fun same => Nat.lt_irrefl _ (same ▸ longer)⟩
  · rintro ⟨other, ⟨entry, inside, rfl⟩, below, different⟩
    refine ⟨entry, inside, Nat.lt_of_le_of_ne below.length_le fun same => different (below.eq_of_length same), below⟩

theorem Exact.isPathMoved (exact : Exact ends state) (path : FieldPath) :
    (state.isPathMoved path).isSome = true ↔ ∃ moved ∈ ends, ∃ other ∈ moved, other <+: path := by
  rw [isPathMoved_isSome]
  constructor
  · rintro (full | ⟨other, key, above⟩)
    · obtain ⟨moved, member, present⟩ := exact.whole.mp full
      exact ⟨moved, member, [], present, List.nil_prefix⟩
    · obtain ⟨-, moved, member, present⟩ := (exact.parts other).mp key
      exact ⟨moved, member, other, present, above⟩
  · rintro ⟨moved, member, other, present, above⟩
    by_cases root : other = []
    · exact .inl (exact.whole.mpr ⟨moved, member, root ▸ present⟩)
    · exact .inr ⟨other, (exact.parts other).mpr ⟨root, moved, member, present⟩, above⟩

theorem Exact.isPathOrDescendantMoved (exact : Exact ends state) (path : FieldPath) :
    (state.isPathOrDescendantMoved path).isSome = true ↔
      ∃ moved ∈ ends, ∃ other ∈ moved, other <+: path ∨ path <+: other := by
  have split : (state.isPathOrDescendantMoved path).isSome = true ↔
      (state.isPathMoved path).isSome = true ∨ (state.movedStrictDescendant path).isSome = true := by
    rw [VariableMoveState.isPathOrDescendantMoved]
    cases state.isPathMoved path <;> simp
  rw [split, exact.isPathMoved, movedStrictDescendant_isSome]
  constructor
  · rintro (⟨moved, member, other, present, above⟩ | ⟨other, key, below, -⟩)
    · exact ⟨moved, member, other, present, .inl above⟩
    · obtain ⟨-, moved, member, present⟩ := (exact.parts other).mp key
      exact ⟨moved, member, other, present, .inr below⟩
  · rintro ⟨moved, member, other, present, above | below⟩
    · exact .inl ⟨moved, member, other, present, above⟩
    · by_cases same : path = other
      · exact .inl ⟨moved, member, other, present, same ▸ List.prefix_refl _⟩
      · have part : other ≠ [] := fun root => same (by rw [root] at below ⊢; exact List.prefix_nil.mp below)
        exact .inr ⟨other, (exact.parts other).mpr ⟨part, moved, member, present⟩, below, same⟩

theorem bare (flow : Flow) (all : flow.state.fullMoveOnAllPaths = true) : flow.state.partialMovesOnAllPaths = ∅ := by
  induction flow with
  | start => rfl
  | moved before path span ih =>
    rw [Flow.state, markPathMoved] at all ⊢
    split
    next => rfl
    next part =>
      rw [if_neg part] at all
      split
      next none' =>
        rw [if_pos none'] at all
        exact absurd none' (before.state.full all)
      next full =>
        rw [if_neg full] at all
        exact ih all
  | reinitialized before path ih =>
    have none' := ih all
    simp only [Flow.state, markPathReinitialized, none', Finset.filter_empty]
  | joined first second ihFirst ihSecond =>
    obtain ⟨left, right⟩ := Bool.and_eq_true_iff.mp all
    simp only [Flow.state, mergeUnion, mergeAllPaths, left, if_true, ihSecond right]

structure Alike (first second : VariableMoveState) : Prop where
  whole : first.fullMove.isSome = second.fullMove.isSome
  always : first.fullMoveOnAllPaths = second.fullMoveOnAllPaths
  parts : ∀ path, path ∈ keys first ↔ path ∈ keys second
  must : first.partialMovesOnAllPaths = second.partialMovesOnAllPaths

/-- May-moves grow at a join and must-moves shrink; a moved whole must move every part. -/
abbrev Facts := Bool × Finset FieldPath × (WithTop (Finset FieldPath))ᵒᵈ

def musts (state : VariableMoveState) : WithTop (Finset FieldPath) :=
  if state.fullMoveOnAllPaths = true then ⊤ else (state.partialMovesOnAllPaths : WithTop (Finset FieldPath))

def facts (state : VariableMoveState) : Facts :=
  (state.fullMove.isSome, (keys state).toFinset, OrderDual.toDual (musts state))

theorem musts_merge (first second : VariableMoveState) : musts (mergeUnion first second) = musts first ⊓ musts second := by
  simp only [musts, mergeUnion, mergeAllPaths, Bool.and_eq_true]
  by_cases left : first.fullMoveOnAllPaths = true
  · by_cases right : second.fullMoveOnAllPaths = true <;> simp [left, right]
  · by_cases right : second.fullMoveOnAllPaths = true
    · simp [left, right]
    · rw [if_neg fun both => left both.1, if_neg left, if_neg right, if_neg left, if_neg right, ← WithTop.coe_inf]
      rfl

theorem facts_merge (first second : VariableMoveState) : facts (mergeUnion first second) = facts first ⊔ facts second := by
  have full : (mergeUnion first second).fullMove.isSome = (first.fullMove.isSome ⊔ second.fullMove.isSome) := by
    simp only [mergeUnion, Option.isSome_or]
    rfl
  have parts : (keys (mergeUnion first second)).toFinset = (keys first).toFinset ⊔ (keys second).toFinset := by
    ext path
    have either : path ∈ keys (mergeUnion first second) ↔ path ∈ keys first ∨ path ∈ keys second := unionPartial_mem _ _ _
    simp only [List.mem_toFinset, either, Finset.sup_eq_union, Finset.mem_union]
  rw [facts, full, parts, musts_merge]
  rfl

theorem Alike.facts {first second : VariableMoveState} (alike : Alike first second) : facts first = facts second := by
  have parts : (keys first).toFinset = (keys second).toFinset := by
    ext path
    simp only [List.mem_toFinset, alike.parts]
  rw [MoveStates.facts, MoveStates.facts, alike.whole, parts, musts, musts, alike.always, alike.must]

def Reached (state : VariableMoveState) : Prop := ∃ flow : Flow, flow.state = state

theorem Reached.merge {first second : VariableMoveState} (left : Reached first) (right : Reached second) :
    Reached (mergeUnion first second) := by
  obtain ⟨one, rfl⟩ := left
  obtain ⟨other, rfl⟩ := right
  exact ⟨.joined one other, rfl⟩

/-- On the states that flows leave, the facts are all there is to know, spans aside. -/
theorem alike_of_facts {first second : VariableMoveState} (left : Reached first) (right : Reached second)
    (same : facts first = facts second) : Alike first second := by
  obtain ⟨one, rfl⟩ := left
  obtain ⟨other, rfl⟩ := right
  obtain ⟨whole, rest⟩ := Prod.mk.inj same
  obtain ⟨parts, must⟩ := Prod.mk.inj rest
  have must : musts one.state = musts other.state := OrderDual.toDual_inj.mp must
  rw [musts, musts] at must
  refine ⟨whole, ?_, fun path => ?_, ?_⟩
  · by_cases left : one.state.fullMoveOnAllPaths = true <;> by_cases right : other.state.fullMoveOnAllPaths = true <;>
      simp_all
  · rw [← List.mem_toFinset, parts, List.mem_toFinset]
  · by_cases left : one.state.fullMoveOnAllPaths = true
    · by_cases right : other.state.fullMoveOnAllPaths = true
      · rw [bare one left, bare other right]
      · simp [left, right] at must
    · by_cases right : other.state.fullMoveOnAllPaths = true
      · simp [left, right] at must
      · rw [if_neg left, if_neg right, WithTop.coe_inj] at must
        exact must

theorem eq_of_isEmpty {state : VariableMoveState} (empty : state.isEmpty = true) : state = .default := by
  obtain ⟨full, parts⟩ := Bool.and_eq_true_iff.mp empty
  have none' : state.fullMove = none := Option.isNone_iff_eq_none.mp full
  have nil : state.partialMoves = [] := List.isEmpty_iff.mp parts
  refine VariableMoveState.ext none' ?_ nil ?_
  · exact Bool.not_eq_true _ |>.mp fun all => state.full all none'
  · apply Finset.eq_empty_of_forall_notMem
    intro path member
    have key := state.subset path member
    rw [nil] at key
    cases key

theorem isEmpty_iff (state : VariableMoveState) :
    state.isEmpty = true ↔ state.fullMove.isSome = false ∧ ∀ path, path ∉ keys state := by
  have parts : state.partialMoves.isEmpty = true ↔ ∀ path, path ∉ keys state := by
    rw [List.isEmpty_iff, ← List.map_eq_nil_iff (f := Prod.fst), List.eq_nil_iff_forall_not_mem, keys]
  rw [VariableMoveState.isEmpty, Bool.and_eq_true_iff, parts]
  cases state.fullMove <;> simp

theorem Alike.isEmpty {first second : VariableMoveState} (alike : Alike first second) : first.isEmpty = second.isEmpty := by
  rw [Bool.eq_iff_iff, isEmpty_iff, isEmpty_iff, alike.whole]
  simp only [alike.parts]

theorem unionPartial_self {first second : List (FieldPath × Span)}
    (inside : ∀ path ∈ second.map Prod.fst, path ∈ first.map Prod.fst) : unionPartial first second = first := by
  induction second with
  | nil => rfl
  | cons entry rest ih =>
    rw [unionPartial, List.foldl_cons, addPartial, if_pos (inside entry.1 List.mem_cons_self)]
    exact ih fun path member => inside path (List.mem_cons_of_mem _ member)

theorem eq_self (state : VariableMoveState) : VariableMoveState.eq state state = true := by
  simp only [VariableMoveState.eq, decide_true, Bool.true_and, List.all_eq_true, List.any_eq_true, decide_eq_true_eq]
  exact fun entry member => ⟨entry, member, rfl, rfl⟩

/-- A join with a state below it compares equal to the state above, spans included. -/
theorem eq_merge_iff {lower upper : VariableMoveState} (below : Reached lower) (above : Reached upper) :
    VariableMoveState.eq (mergeUnion upper lower) upper = true ↔ facts lower ≤ facts upper := by
  rw [← sup_eq_left, ← facts_merge]
  constructor
  · intro equal
    simp only [VariableMoveState.eq, Bool.and_eq_true, decide_eq_true_eq, List.all_eq_true, List.any_eq_true] at equal
    obtain ⟨⟨⟨⟨whole, always⟩, must⟩, -⟩, listed⟩ := equal
    refine Alike.facts ⟨by rw [whole], always, fun path => ⟨fun member => ?_, fun member => ?_⟩, must⟩
    · obtain ⟨entry, inside, rfl⟩ := List.mem_map.mp member
      obtain ⟨other, there, same, -⟩ := listed entry inside
      exact List.mem_map.mpr ⟨other, there, same⟩
    · exact (unionPartial_mem _ _ _).mpr (.inl member)
  · intro same
    obtain ⟨whole, always, parts, must⟩ := alike_of_facts (above.merge below) above same
    have full : (mergeUnion upper lower).fullMove = upper.fullMove := by
      cases known : upper.fullMove with
      | some span => simp only [mergeUnion, known, Option.some_or]
      | none =>
        rw [known] at whole
        exact Option.not_isSome_iff_eq_none.mp (whole ▸ Bool.false_ne_true)
    have listed : (mergeUnion upper lower).partialMoves = upper.partialMoves :=
      unionPartial_self fun path member => (parts path).mp ((unionPartial_mem _ _ _).mpr (.inr member))
    rw [VariableMoveState.ext full always listed must]
    exact eq_self upper

/-- A map of states that flows leave, with no empty one. -/
def Settled (moves : MoveMap) : Prop := ∀ symbol state, moves symbol = some state → Reached state ∧ state.isEmpty = false

theorem Settled.reached {moves : MoveMap} (settled : Settled moves) (symbol : Spur) : Reached (moves.getOrDefault symbol) := by
  rw [MoveMap.getOrDefault]
  cases found : moves symbol with
  | none => exact ⟨.start, rfl⟩
  | some state => exact (settled symbol state found).1

/-- A name with no entry is a name with the empty state. -/
theorem union_getOrDefault (first second : MoveMap) (symbol : Spur) :
    (unionMoveMaps first second).getOrDefault symbol = mergeUnion (first.getOrDefault symbol) (second.getOrDefault symbol) := by
  rw [MoveMap.getOrDefault, unionMoveMaps]
  split
  next present =>
    dsimp only
    split
    next empty => exact (eq_of_isEmpty empty).symm
    next kept => rfl
  next absent =>
    rw [Bool.or_eq_true, not_or, Option.not_isSome_iff_eq_none, Option.not_isSome_iff_eq_none] at absent
    rw [MoveMap.getOrDefault, MoveMap.getOrDefault, absent.1, absent.2]
    rfl

theorem union_settled {first second : MoveMap} (left : Settled first) (right : Settled second) :
    Settled (unionMoveMaps first second) := by
  intro symbol state found
  have value := union_getOrDefault first second symbol
  rw [MoveMap.getOrDefault, found, Option.getD_some] at value
  refine ⟨value ▸ (left.reached symbol).merge (right.reached symbol), ?_⟩
  rw [unionMoveMaps] at found
  split at found
  · dsimp only at found
    split at found
    · cases found
    next kept =>
      rw [← Option.some.inj found]
      exact Bool.not_eq_true _ |>.mp kept
  · cases found

theorem rel_iff {first second : Option VariableMoveState} {relation : VariableMoveState → VariableMoveState → Prop}
    (left : ∀ state, first = some state → state.isEmpty = false) (right : ∀ state, second = some state → state.isEmpty = false)
    (refl : relation .default .default) (empty : ∀ one other, relation one other → one.isEmpty = other.isEmpty) :
    Option.Rel relation first second ↔ relation (first.getD .default) (second.getD .default) := by
  cases first with
  | none =>
    cases second with
    | none => exact ⟨fun _ => refl, fun _ => .none⟩
    | some other => exact ⟨fun absurd' => (nomatch absurd'), fun same => absurd (empty _ _ same) (by simp [right other rfl]; rfl)⟩
  | some one =>
    cases second with
    | none => exact ⟨fun absurd' => (nomatch absurd'), fun same => absurd (empty _ _ same) (by simp [left one rfl]; rfl)⟩
    | some other => exact ⟨fun | .some same => same, .some⟩

theorem eq_isEmpty {one other : VariableMoveState} (equal : VariableMoveState.eq one other = true) :
    one.isEmpty = other.isEmpty := by
  simp only [VariableMoveState.eq, Bool.and_eq_true, decide_eq_true_eq] at equal
  obtain ⟨⟨⟨⟨whole, -⟩, -⟩, length⟩, -⟩ := equal
  rw [Bool.eq_iff_iff, VariableMoveState.isEmpty, VariableMoveState.isEmpty, Bool.and_eq_true, Bool.and_eq_true, whole,
    List.isEmpty_iff_length_eq_zero, List.isEmpty_iff_length_eq_zero, length]

def AlikeMaps (first second : MoveMap) : Prop := ∀ symbol, Option.Rel Alike (first symbol) (second symbol)

variable {lower upper : MoveMap}

/-- A map is below another just when each of its states is. -/
theorem moveMapBelow_iff (below : Settled lower) (above : Settled upper) :
    moveMapBelow lower upper ↔ ∀ symbol, facts (lower.getOrDefault symbol) ≤ facts (upper.getOrDefault symbol) := by
  apply forall_congr'
  intro symbol
  rw [rel_iff (fun state found => (union_settled above below symbol state found).2)
    (fun state found => (above symbol state found).2) (eq_self _) fun _ _ => eq_isEmpty]
  rw [← eq_merge_iff (below.reached symbol) (above.reached symbol), ← union_getOrDefault]
  rfl

theorem alikeMaps_iff (below : Settled lower) (above : Settled upper) :
    AlikeMaps lower upper ↔ ∀ symbol, facts (lower.getOrDefault symbol) = facts (upper.getOrDefault symbol) := by
  apply forall_congr'
  intro symbol
  have refl : Alike .default .default := ⟨rfl, rfl, fun _ => Iff.rfl, rfl⟩
  rw [rel_iff (fun state found => (below symbol state found).2) (fun state found => (above symbol state found).2) refl
    fun _ _ => Alike.isEmpty]
  exact ⟨Alike.facts, alike_of_facts (below.reached symbol) (above.reached symbol)⟩

/-- The move states of a legal flow say exactly what may be moved where it ends, and
only what must be. Spans aside, states join as a semilattice does, and the order of
that semilattice is the one the loop check compares move maps with. -/
theorem moveStates_exact :
    (∀ flow : Flow, flow.Legal →
      (∀ path, (flow.state.isPathMoved path).isSome = true ↔ ∃ moved ∈ flow.ends, ∃ other ∈ moved, other <+: path) ∧
      (∀ path, (flow.state.isPathOrDescendantMoved path).isSome = true ↔
        ∃ moved ∈ flow.ends, ∃ other ∈ moved, other <+: path ∨ path <+: other) ∧
      (flow.state.fullMoveOnAllPaths = true ↔ ∀ moved ∈ flow.ends, [] ∈ moved) ∧
      (∀ path ∈ flow.state.partialMovesOnAllPaths,
        (∀ moved ∈ flow.ends, ∃ other ∈ moved, other <+: path) ∧ path ∈ flow.state.partialMoves.map Prod.fst) ∧
      (flow.state.partialMoves.map Prod.fst).Nodup) ∧
    (∀ first second third : VariableMoveState, Reached first → Reached second → Reached third →
      Alike (mergeUnion (mergeUnion first second) third) (mergeUnion first (mergeUnion second third)) ∧
      Alike (mergeUnion first second) (mergeUnion second first) ∧ Alike (mergeUnion first first) first) ∧
    (∀ lower upper : MoveMap, Settled lower → Settled upper →
      (moveMapBelow lower upper ↔ AlikeMaps (unionMoveMaps lower upper) upper) ∧ moveMapBelow upper upper ∧
      (moveMapBelow lower upper → moveMapBelow upper lower → AlikeMaps lower upper) ∧
      ∀ top : MoveMap, Settled top →
        (moveMapBelow (unionMoveMaps lower upper) top ↔ moveMapBelow lower top ∧ moveMapBelow upper top) ∧
        (moveMapBelow lower upper → moveMapBelow upper top → moveMapBelow lower top)) := by
  refine ⟨fun flow legal => ?_, fun first second third one two three => ?_, fun lower upper below above => ?_⟩
  · have exact := flow_exact flow legal
    refine ⟨exact.isPathMoved, exact.isPathOrDescendantMoved, exact.always,
      fun path member => ⟨fun moved inside => ?_, flow.state.subset path member⟩, flow.state.unique⟩
    rcases exact.must path member moved inside with present | root
    · exact ⟨path, present, List.prefix_refl _⟩
    · exact ⟨[], root, List.nil_prefix⟩
  · refine ⟨alike_of_facts ((one.merge two).merge three) (one.merge (two.merge three)) ?_,
      alike_of_facts (one.merge two) (two.merge one) ?_, alike_of_facts (one.merge one) one ?_⟩
    · rw [facts_merge, facts_merge, facts_merge, facts_merge, sup_assoc]
    · rw [facts_merge, facts_merge, sup_comm]
    · rw [facts_merge, sup_idem]
  · have joined := union_settled below above
    refine ⟨?_, ?_, fun up down => ?_, fun top over' => ⟨?_, fun first second => ?_⟩⟩
    · rw [moveMapBelow_iff below above, alikeMaps_iff joined above]
      simp only [union_getOrDefault, facts_merge, sup_eq_right]
    · exact (moveMapBelow_iff above above).mpr fun symbol => le_refl _
    · rw [moveMapBelow_iff below above] at up
      rw [moveMapBelow_iff above below] at down
      exact (alikeMaps_iff below above).mpr fun symbol => le_antisymm (up symbol) (down symbol)
    · rw [moveMapBelow_iff joined over', moveMapBelow_iff below over', moveMapBelow_iff above over', ← forall_and]
      simp only [union_getOrDefault, facts_merge, sup_le_iff]
    · rw [moveMapBelow_iff below above] at first
      rw [moveMapBelow_iff above over'] at second
      exact (moveMapBelow_iff below over').mpr fun symbol => le_trans (first symbol) (second symbol)

/-- A field moved on one branch only, and the whole variable on the other. -/
def oneBranch : Flow := .joined (.moved .start [1] ⟨0, 1, 2⟩) (.moved .start [] ⟨0, 3, 4⟩)

theorem oneBranch_exact : (oneBranch.state.isPathMoved [2]).isSome = true ∧ oneBranch.state.fullMoveOnAllPaths = false ∧
    Alike (mergeUnion oneBranch.state oneBranch.state) oneBranch.state := by
  have legal : oneBranch.Legal := by
    refine ⟨⟨trivial, ?_⟩, ⟨trivial, ?_⟩⟩ <;> decide
  obtain ⟨states, join, -⟩ := moveStates_exact
  obtain ⟨moved, -, always, -⟩ := states oneBranch legal
  have reached : Reached oneBranch.state := ⟨oneBranch, rfl⟩
  refine ⟨(moved [2]).mpr ⟨{[]}, by decide, [], by decide, List.nil_prefix⟩, ?_, (join _ _ _ reached reached reached).2.2⟩
  exact Bool.not_eq_true _ |>.mp fun all => absurd (always.mp all {[1]} (by decide)) (by decide)

end Rue.Proofs.Ownership.MoveStates
