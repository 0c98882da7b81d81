import Mathlib.Data.List.Basic

/-! Paths from the entry of a flow graph, and dominance over them. -/

namespace Rue.Lib

universe u

variable {α : Type u}

/-- The nodes left behind on the way from the entry to a node, in order. -/
inductive Path (edge : α → α → Prop) (entry : α) : List α → α → Prop where
  | start : Path edge entry [] entry
  | step {done : List α} {node next : α} (path : Path edge entry done node) (taken : edge node next) :
      Path edge entry (done ++ [node]) next

def Reachable (edge : α → α → Prop) (entry node : α) : Prop := ∃ done, Path edge entry done node

/-- Every path to the second node goes through the first. -/
def Dominates (edge : α → α → Prop) (entry first second : α) : Prop :=
  ∀ done, Path edge entry done second → first ∈ done ∨ first = second

variable {edge : α → α → Prop} {entry node next : α} {done : List α}

theorem Reachable.start : Reachable edge entry entry := ⟨[], .start⟩

theorem Reachable.step (reached : Reachable edge entry node) (taken : edge node next) : Reachable edge entry next := by
  obtain ⟨done, path⟩ := reached
  exact ⟨_, path.step taken⟩

namespace Path

/-- A node passed on a path is reached by a shorter one that the path extends. -/
theorem before (path : Path edge entry done node) {earlier : α} (passed : earlier ∈ done) :
    ∃ first rest, done = first ++ earlier :: rest ∧ Path edge entry first earlier := by
  induction path with
  | start => cases passed
  | @step done node next path taken ih =>
    rcases List.mem_append.mp passed with inside | last
    · obtain ⟨first, rest, rfl, shorter⟩ := ih inside
      exact ⟨first, rest ++ [node], by simp, shorter⟩
    · rw [List.mem_singleton] at last
      subst last
      exact ⟨done, [], rfl, path⟩

theorem reachable_of_mem (path : Path edge entry done node) {earlier : α} (passed : earlier ∈ done) :
    Reachable edge entry earlier := by
  obtain ⟨first, _, _, shorter⟩ := path.before passed
  exact ⟨first, shorter⟩

/-- Whatever holds at the entry and along edges holds of every node reached. -/
theorem invariant (path : Path edge entry done node) {holds : α → Prop} (first : holds entry)
    (kept : ∀ node next, holds node → edge node next → holds next) : holds node := by
  induction path with
  | start => exact first
  | step _ taken ih => exact kept _ _ ih taken

end Path

namespace Dominates

theorem refl : Dominates edge entry node node := fun _ _ => Or.inr rfl

theorem trans {first second third : α} (early : Dominates edge entry first second)
    (late : Dominates edge entry second third) : Dominates edge entry first third := by
  intro done path
  rcases late done path with passed | rfl
  · obtain ⟨before, rest, rfl, shorter⟩ := path.before passed
    rcases early before shorter with inside | rfl
    · exact Or.inl (by simp [inside])
    · exact Or.inl (by simp)
  · exact early done path

/-- Two nodes that dominate each other are one, as far as the entry reaches. -/
theorem antisymm {first second : α} (reached : Reachable edge entry second)
    (early : Dominates edge entry first second) (late : Dominates edge entry second first) : first = second := by
  obtain ⟨done, path⟩ := reached
  induction length : done.length using Nat.strongRecOn generalizing done with
  | ind bound ih =>
    rcases early done path with passed | same
    · obtain ⟨before, rest, rfl, shorter⟩ := path.before passed
      rcases late before shorter with again | same
      · obtain ⟨start, tail, rfl, shortest⟩ := shorter.before again
        refine ih start.length ?_ start shortest rfl
        rw [← length]
        simp only [List.length_append, List.length_cons]
        omega
      · exact same.symm
    · exact same

/-- A dominator other than the node itself dominates every predecessor. -/
theorem pred {first : α} (dominates : Dominates edge entry first next) (different : first ≠ next)
    (taken : edge node next) : Dominates edge entry first node := by
  intro done path
  rcases dominates _ (path.step taken) with passed | same
  · simpa using passed
  · exact absurd same different

theorem reachable {first second : α} (dominates : Dominates edge entry first second)
    (reached : Reachable edge entry second) : Reachable edge entry first := by
  obtain ⟨done, path⟩ := reached
  rcases dominates done path with passed | rfl
  · exact path.reachable_of_mem passed
  · exact ⟨done, path⟩

end Dominates

/-- The nodes reached carry over along a map, edge by edge. -/
structure Renames {β : Type u} (edge : α → α → Prop) (entry : α) (image : β → β → Prop) (map : α → β) : Prop where
  forward : ∀ source target, Reachable edge entry source → edge source target → image (map source) (map target)
  backward : ∀ source after, Reachable edge entry source → image (map source) after →
    ∃ target, after = map target ∧ edge source target
  injective : ∀ first second, Reachable edge entry first → Reachable edge entry second → map first = map second →
    first = second

namespace Renames

variable {β : Type u} {image : β → β → Prop} {map : α → β}

theorem path (renames : Renames edge entry image map) (path : Path edge entry done node) :
    Path image (map entry) (done.map map) (map node) := by
  induction path with
  | start => exact .start
  | step path taken ih =>
    rw [List.map_append]
    exact ih.step (renames.forward _ _ ⟨_, path⟩ taken)

theorem lift (renames : Renames edge entry image map) {passed : List β} {last : β}
    (path : Path image (map entry) passed last) :
    ∃ done node, Path edge entry done node ∧ passed = done.map map ∧ last = map node := by
  induction path with
  | start => exact ⟨[], entry, .start, rfl, rfl⟩
  | step _ taken ih =>
    obtain ⟨done, node, path, rfl, rfl⟩ := ih
    obtain ⟨target, rfl, edge⟩ := renames.backward node _ ⟨done, path⟩ taken
    exact ⟨done ++ [node], target, path.step edge, by simp, rfl⟩

theorem reachable (renames : Renames edge entry image map) (reached : Reachable edge entry node) :
    Reachable image (map entry) (map node) := by
  obtain ⟨done, path⟩ := reached
  exact ⟨_, renames.path path⟩

theorem reachable_lift (renames : Renames edge entry image map) {last : β} (reached : Reachable image (map entry) last) :
    ∃ node, Reachable edge entry node ∧ last = map node := by
  obtain ⟨passed, path⟩ := reached
  obtain ⟨done, node, original, -, rfl⟩ := renames.lift path
  exact ⟨node, ⟨done, original⟩, rfl⟩

theorem dominates (renames : Renames edge entry image map) {first second : α} (reached : Reachable edge entry second)
    (dominates : Dominates edge entry first second) : Dominates image (map entry) (map first) (map second) := by
  intro passed path
  obtain ⟨done, node, original, rfl, same⟩ := renames.lift path
  have := renames.injective second node reached ⟨done, original⟩ same
  subst this
  rcases dominates done original with inside | rfl
  · exact Or.inl (List.mem_map_of_mem inside)
  · exact Or.inr rfl

end Renames

end Rue.Lib
