import Mathlib.Data.List.Basic
import Mathlib.Data.List.Nodup
import Mathlib.Data.List.NodupEquivFin

/-! Reordering a run. Operations that do not depend on one another commute, so
any rearrangement that keeps dependent pairs in order has the same effect. -/

namespace Rue.Lib.Reorder

universe u v

/-- The first operation comes before the second one. -/
def Precedes {ι : Type u} (order : List ι) (first second : ι) : Prop := [first, second].Sublist order

section Order
variable {ι : Type u} {order : List ι} {first second third : ι}

theorem Precedes.mem_left (precedes : Precedes order first second) : first ∈ order :=
  precedes.subset List.mem_cons_self

theorem Precedes.mem_right (precedes : Precedes order first second) : second ∈ order :=
  precedes.subset (List.mem_cons_of_mem _ List.mem_cons_self)

theorem precedes_cons {head : ι} :
    Precedes (head :: order) first second ↔ Precedes order first second ∨ first = head ∧ second ∈ order := by
  simp only [Precedes, List.sublist_cons_iff, List.cons.injEq]
  constructor
  · rintro (inner | ⟨rest, ⟨rfl, rfl⟩, sub⟩)
    · exact Or.inl inner
    · exact Or.inr ⟨rfl, List.singleton_sublist.mp sub⟩
  · rintro (inner | ⟨rfl, member⟩)
    · exact Or.inl inner
    · exact Or.inr ⟨[second], ⟨rfl, rfl⟩, List.singleton_sublist.mpr member⟩

theorem Precedes.trans (distinct : order.Nodup) (earlier : Precedes order first second)
    (later : Precedes order second third) : Precedes order first third := by
  induction order with
  | nil => cases earlier.mem_left
  | cons head order ih =>
    obtain ⟨fresh, distinct⟩ := List.nodup_cons.mp distinct
    rw [precedes_cons] at earlier later ⊢
    rcases later with later | ⟨rfl, member⟩
    · rcases earlier with earlier | ⟨rfl, _⟩
      · exact Or.inl (ih distinct earlier later)
      · exact Or.inr ⟨rfl, later.mem_right⟩
    · rcases earlier with earlier | ⟨rfl, present⟩
      · exact absurd earlier.mem_right fresh
      · exact absurd present fresh

theorem Precedes.asymm (distinct : order.Nodup) (precedes : Precedes order first second) :
    ¬ Precedes order second first := by
  intro back
  have loop := precedes.trans distinct back
  exact (List.nodup_iff_sublist.mp distinct first) loop

theorem Precedes.append (member : first ∈ order) {rest : List ι} (present : second ∈ rest) :
    Precedes (order ++ rest) first second :=
  (List.singleton_sublist.mpr member).append (List.singleton_sublist.mpr present)

theorem precedes_iff_getElem? : Precedes order first second ↔
    ∃ early late : Nat, early < late ∧ order[early]? = some first ∧ order[late]? = some second := by
  constructor
  · intro precedes
    obtain ⟨place, found⟩ := List.sublist_iff_exists_orderEmbedding_getElem?_eq.mp precedes
    exact ⟨place 0, place 1, place.lt_iff_lt.mpr Nat.zero_lt_one, (found 0).symm, (found 1).symm⟩
  · rintro ⟨early, late, earlier, foundFirst, foundSecond⟩
    have front : first ∈ order.take late := by
      apply List.mem_of_getElem?
      rw [List.getElem?_take_of_lt earlier, foundFirst]
    have back : second ∈ order.drop late := by
      apply List.mem_of_getElem?
      rw [List.getElem?_drop, Nat.add_zero, foundSecond]
    have whole := Precedes.append front back
    rwa [List.take_append_drop] at whole

theorem Precedes.weaken {larger : List ι} (precedes : Precedes order first second) (inside : order.Sublist larger) :
    Precedes larger first second := List.Sublist.trans precedes inside

/-- Dropping an operation keeps the order of the others. -/
theorem Precedes.drop {op : ι} {front back : List ι} (precedes : Precedes (front ++ op :: back) first second)
    (firstOther : first ≠ op) (secondOther : second ≠ op) : Precedes (front ++ back) first second := by
  induction front with
  | nil =>
    rcases precedes_cons.mp precedes with inner | ⟨same, _⟩
    · exact inner
    · exact absurd same firstOther
  | cons head front ih =>
    rw [List.cons_append, precedes_cons] at precedes ⊢
    refine precedes.imp ih fun present => ⟨present.1, ?_⟩
    rcases List.mem_append.mp present.2 with early | late
    · exact List.mem_append_left _ early
    · exact List.mem_append_right _ ((List.mem_cons.mp late).resolve_left secondOther)

end Order

section Commute
variable {ι : Type u} {State : Type v} {exec : State → ι → State}

/-- An operation moves in front of a run of operations it commutes with. -/
theorem foldl_move_front {op : ι} {run : List ι}
    (commutes : ∀ other ∈ run, ∀ state, exec (exec state other) op = exec (exec state op) other) (state : State) :
    exec (run.foldl exec state) op = run.foldl exec (exec state op) := by
  induction run generalizing state with
  | nil => rfl
  | cons other run ih =>
    rw [List.foldl_cons, ih (fun later member => commutes later (List.mem_cons_of_mem _ member)),
      commutes other List.mem_cons_self, List.foldl_cons]

/-- A rearrangement that keeps dependent operations in order has the same effect. -/
theorem foldl_eq_of_reorder {depends : ι → ι → Prop} {before after : List ι}
    (commutes : ∀ first ∈ before, ∀ second ∈ before, ¬ depends first second → ∀ state,
      exec (exec state second) first = exec (exec state first) second)
    (distinct : before.Nodup) (perm : after.Perm before)
    (ordered : ∀ first second, Precedes before first second → depends first second → Precedes after first second)
    (state : State) : after.foldl exec state = before.foldl exec state := by
  induction before generalizing after state with
  | nil => rw [perm.eq_nil]
  | cons op before ih =>
    have after_distinct := perm.nodup_iff.mpr distinct
    obtain ⟨front, back, rfl⟩ := List.append_of_mem (perm.mem_iff.mpr List.mem_cons_self)
    have rest : (front ++ back).Perm before := (List.perm_middle.symm.trans perm).cons_inv
    obtain ⟨fresh, distinct⟩ := List.nodup_cons.mp distinct
    -- Nothing that was moved in front of the operation depends on it.
    have moved : ∀ other ∈ front, ¬ depends op other := by
      intro other member dependent
      have present : other ∈ before := rest.mem_iff.mp (List.mem_append_left _ member)
      have kept := ordered op other (precedes_cons.mpr (Or.inr ⟨rfl, present⟩)) dependent
      have swapped : Precedes (front ++ op :: back) other op := Precedes.append member List.mem_cons_self
      exact kept.asymm after_distinct swapped
    have shifted := foldl_move_front (fun other member => commutes op List.mem_cons_self other
      (List.mem_cons_of_mem _ (rest.mem_iff.mp (List.mem_append_left _ member))) (moved other member)) state
    have remaining := ih (fun first firstIn second secondIn => commutes first (List.mem_cons_of_mem _ firstIn)
      second (List.mem_cons_of_mem _ secondIn)) distinct rest ?_ (exec state op)
    · rw [List.foldl_append, List.foldl_cons, shifted, ← List.foldl_append, remaining, List.foldl_cons]
    · intro first second precedes dependent
      have kept := ordered first second (precedes_cons.mpr (Or.inl precedes)) dependent
      have different : ∀ {other}, other ∈ before → other ≠ op := fun member same => fresh (same ▸ member)
      exact kept.drop (different precedes.mem_left) (different precedes.mem_right)

end Commute

/-! Sparse dependences. Recording an edge only where nothing writes in between
is enough, because the writer in between orders the two ends. -/

section Sparse

/-- The two indices read or write one resource, and not both only read it. -/
def Conflicts (reads writes : Nat → Prop) (first second : Nat) : Prop :=
  writes first ∧ (reads second ∨ writes second) ∨ reads first ∧ writes second

theorem ordered_of_sparse {reads writes : Nat → Prop} {before : Nat → Nat → Prop} {count : Nat}
    (transitive : ∀ {first second third}, before first second → before second third → before first third)
    (sparse : ∀ first second, first < second → second < count → Conflicts reads writes first second →
      (∀ middle, first < middle → middle < second → ¬ writes middle) → before first second)
    {first second : Nat} (earlier : first < second) (inside : second < count)
    (conflicts : Conflicts reads writes first second) : before first second := by
  obtain ⟨distance, reach⟩ : ∃ distance, second = first + distance := ⟨second - first, by omega⟩
  induction distance using Nat.strongRecOn generalizing first second with
  | ind distance ih =>
    by_cases direct : ∀ middle, first < middle → middle < second → ¬ writes middle
    · exact sparse first second earlier inside conflicts direct
    · simp only [not_forall, not_not] at direct
      obtain ⟨middle, above, below, writing⟩ := direct
      have front : Conflicts reads writes first middle :=
        conflicts.elim (fun write => Or.inl ⟨write.1, Or.inr writing⟩) fun read => Or.inr ⟨read.1, writing⟩
      have back : Conflicts reads writes middle second :=
        Or.inl ⟨writing, conflicts.elim (fun write => write.2) fun read => Or.inr read.2⟩
      exact transitive (ih (middle - first) (by omega) above (by omega) front (by omega))
        (ih (second - middle) (by omega) below inside back (by omega))

end Sparse

end Rue.Lib.Reorder
