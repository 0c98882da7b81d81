import Mathlib.Data.List.Basic

/-! Relative walks in a tree whose root is its own parent. A walk reduces to a number
of ascents followed by a list of names; the reduced form is determined by where the
walk ends from deep enough nodes. -/

namespace Rue.Lib.Lexical

inductive Step (α : Type) where
  | up
  | down (name : α)
  deriving DecidableEq

/-- A node is the list of names on the way to the root, its own name first. -/
abbrev Node (α : Type) := List α

variable {α : Type}

def enter (node : Node α) : Step α → Node α
  | .up => node.tail
  | .down name => name :: node

/-- First ascend, then descend; the last name entered comes first. -/
structure Form (α : Type) where
  ups : Nat
  names : List α
  deriving DecidableEq

namespace Form

def start : Form α := ⟨0, []⟩

def step (form : Form α) : Step α → Form α
  | .down name => ⟨form.ups, name :: form.names⟩
  | .up =>
    match form.names with
    | [] => ⟨form.ups + 1, []⟩
    | _ :: rest => ⟨form.ups, rest⟩

def apply (form : Form α) (node : Node α) : Node α := form.names ++ node.drop form.ups

def steps (form : Form α) : List (Step α) := List.replicate form.ups .up ++ form.names.reverse.map .down

theorem apply_step (form : Form α) (step : Step α) (node : Node α) :
    (form.step step).apply node = enter (form.apply node) step := by
  cases step with
  | down name => rfl
  | up =>
    rcases form with ⟨ups, names⟩
    cases names with
    | nil => simp [Form.step, apply, enter]
    | cons name rest => rfl

end Form

def reduce (steps : List (Step α)) : Form α := steps.foldl Form.step .start

theorem apply_foldl (steps : List (Step α)) (form : Form α) (node : Node α) :
    (steps.foldl Form.step form).apply node = steps.foldl enter (form.apply node) := by
  induction steps generalizing form with
  | nil => rfl
  | cons step rest ih => rw [List.foldl_cons, List.foldl_cons, ih, Form.apply_step]

theorem apply_reduce (steps : List (Step α)) (node : Node α) : (reduce steps).apply node = steps.foldl enter node :=
  apply_foldl steps .start node

theorem foldl_up (count : Nat) (form : Form α) (bare : form.names = []) :
    (List.replicate count Step.up).foldl Form.step form = ⟨form.ups + count, []⟩ := by
  induction count generalizing form with
  | zero => exact congrArg (Form.mk form.ups) bare
  | succ count ih =>
    have next : form.step .up = ⟨form.ups + 1, []⟩ := by simp only [Form.step, bare]
    rw [List.replicate_succ, List.foldl_cons, next, ih _ rfl, Nat.add_assoc, Nat.add_comm 1]

theorem foldl_down (names : List α) (form : Form α) :
    (names.map Step.down).foldl Form.step form = ⟨form.ups, names.reverse ++ form.names⟩ := by
  induction names generalizing form with
  | nil => rfl
  | cons name rest ih => simp [ih, Form.step]

theorem reduce_steps (form : Form α) : reduce form.steps = form := by
  rw [reduce, Form.steps, List.foldl_append, foldl_up form.ups .start rfl, foldl_down]
  simp [Form.start]

theorem mem_foldl_names {steps : List (Step α)} {form : Form α} {name : α}
    (member : name ∈ (steps.foldl Form.step form).names) : name ∈ form.names ∨ .down name ∈ steps := by
  induction steps generalizing form with
  | nil => exact .inl member
  | cons step rest ih =>
    rcases ih member with stepped | later
    · cases step with
      | down other =>
        rcases List.mem_cons.mp stepped with rfl | old
        · exact .inr List.mem_cons_self
        · exact .inl old
      | up =>
        rcases form with ⟨ups, names⟩
        cases names with
        | nil => cases stepped
        | cons first rest => exact .inl (List.mem_cons_of_mem _ stepped)
    · exact .inr (List.mem_cons_of_mem _ later)

/-- Every name of a reduced form was entered by the walk. -/
theorem mem_reduce {steps : List (Step α)} {name : α} (member : name ∈ (reduce steps).names) : .down name ∈ steps := by
  rcases mem_foldl_names member with start | entered
  · cases start
  · exact entered

/-- How a walk goes on depends on the names entered, not on the ascents before them. -/
theorem foldl_names (steps : List (Step α)) {first second : Form α} (same : first.names = second.names) :
    (steps.foldl Form.step first).names = (steps.foldl Form.step second).names := by
  induction steps generalizing first second with
  | nil => exact same
  | cons step rest ih =>
    apply ih
    cases step with
    | down name => simp only [Form.step, same]
    | up => cases names : second.names <;> simp only [Form.step, same, names]

/-- Two forms that end at the same node from every node of one repeated name that
is deep enough differ at most by names equal to it. -/
theorem Form.same_ends {first second : Form α} {fresh : α} {depth : Nat}
    (agree : ∀ length ≥ depth, first.apply (List.replicate length fresh) = second.apply (List.replicate length fresh)) :
    first.names ++ List.replicate (depth + second.ups + 1) fresh =
      second.names ++ List.replicate (depth + first.ups + 1) fresh := by
  have ends := agree (depth + first.ups + second.ups + 1) (by omega)
  rw [Form.apply, Form.apply, List.drop_replicate, List.drop_replicate] at ends
  rw [show depth + second.ups + 1 = depth + first.ups + second.ups + 1 - first.ups by omega,
    show depth + first.ups + 1 = depth + first.ups + second.ups + 1 - second.ups by omega]
  exact ends

theorem Form.not_shorter {first second : Form α} {one two : α} (different : one ≠ two) {depth : Nat}
    (agree : ∀ fresh, fresh = one ∨ fresh = two → ∀ length ≥ depth,
      first.apply (List.replicate length fresh) = second.apply (List.replicate length fresh)) :
    ¬first.names.length < second.names.length := by
  intro longer
  have here : ∀ fresh, fresh = one ∨ fresh = two → fresh = second.names[first.names.length] := by
    intro fresh either
    have read := congrArg (fun node => node[first.names.length]?) (Form.same_ends (agree fresh either))
    rw [List.getElem?_append_right (Nat.le_refl _), List.getElem?_append_left longer, Nat.sub_self,
      List.getElem?_eq_getElem longer, List.getElem?_replicate, if_pos (Nat.succ_pos _)] at read
    exact Option.some.inj read
  exact different ((here one (.inl rfl)).trans (here two (.inr rfl)).symm)

/-- Different forms end at different nodes, from deep enough nodes of one of two names. -/
theorem Form.separated {first second : Form α} {one two : α} (different : one ≠ two) {depth : Nat}
    (agree : ∀ fresh, fresh = one ∨ fresh = two → ∀ length ≥ depth,
      first.apply (List.replicate length fresh) = second.apply (List.replicate length fresh)) : first = second := by
  have same : first.names.length = second.names.length := by
    have forward := Form.not_shorter different agree
    have backward := Form.not_shorter different fun fresh either length deep => (agree fresh either length deep).symm
    omega
  obtain ⟨names, rest⟩ := List.append_inj (Form.same_ends (agree one (.inl rfl))) same
  have ups := congrArg List.length rest
  rw [List.length_replicate, List.length_replicate] at ups
  rcases first with ⟨firstUps, firstNames⟩
  rcases second with ⟨secondUps, secondNames⟩
  rw [Form.mk.injEq]
  refine ⟨?_, names⟩
  simp only at ups
  omega

end Rue.Lib.Lexical
